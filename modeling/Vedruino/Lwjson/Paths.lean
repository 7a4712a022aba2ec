import Vedruino.Lwjson.Find
import Vedruino.Lwjson.Json

/-!
# Paths of nodes

The path that the names and the numbers on the way to a node spell. Where the names of each object differ and none of them could be taken for something else, the path of a node finds it.
-/

namespace Vedruino.Lwjson

variable {R : Type}

def Segment.text : Segment → List UInt8
  | .name n => n
  | .index i => ch '#' :: (Nat.toDigits 10 i).map ch
  | .any => [ch '#']

/-- The segments with points between them. -/
def spell : List Segment → List UInt8
  | [] => []
  | [seg] => seg.text
  | seg :: ss => seg.text ++ ch '.' :: spell ss

/-- A name that is read back as a segment, and that may be the last one. -/
structure UsableName (n : List UInt8) : Prop where
  ne_nil : n ≠ []
  hash : n.head? ≠ some (ch '#')
  point : ch '.' ∉ n
  zero : 0 ∉ n

/-- The segment chooses one child and is read back. -/
def Segment.Usable : Segment → Prop
  | .name n => UsableName n
  | .index i => i < 2 ^ 32
  | .any => False

/-! ### The spelling is read back -/

theorem parseIndex_digits {cs : List Char} (hcs : ∀ c ∈ cs, c.isDigit = true) (n : Nat) :
    parseIndex (cs.map ch) (n % 2 ^ 32) = some (Nat.ofDigitChars 10 cs n % 2 ^ 32) := by
  induction cs generalizing n with
  | nil => rfl
  | cons c cs ih =>
    obtain ⟨hc, hcs⟩ := List.forall_mem_cons.1 hcs
    obtain ⟨hascii, hdigit⟩ := isDigit_ch hc
    have hnat : (ch c).toNat = c.toNat := by
      rw [UInt8.toNat_ofNat', Nat.mod_eq_of_lt (by omega)]
    have hzero : (ch '0').toNat = '0'.toNat := rfl
    have hstep : (n % 2 ^ 32 * 10 + ((ch c).toNat - (ch '0').toNat)) % 2 ^ 32 = (10 * n + (c.toNat - '0'.toNat)) % 2 ^ 32 := by
      rw [hnat, hzero]
      omega
    rw [List.map_cons, parseIndex, if_pos hdigit, hstep, ih hcs, Nat.ofDigitChars_cons]

theorem Segment.Usable.segment {seg : Segment} (h : seg.Usable) :
    Lwjson.segment seg.text = some seg ∧ seg.text ≠ [] ∧ ch '.' ∉ seg.text := by
  cases seg with
  | name n =>
    obtain ⟨hne, hhash, hpoint, -⟩ := h
    refine ⟨?_, hne, hpoint⟩
    obtain ⟨c, s, rfl⟩ := List.exists_cons_of_ne_nil hne
    exact if_neg fun hc => hhash (congrArg some hc)
  | index i =>
    have hi : i < 2 ^ 32 := h
    have hdigits : ∀ c ∈ Nat.toDigits 10 i, c.isDigit = true := fun c hc => Nat.isDigit_of_mem_toDigits (by decide) (by decide) hc
    have hne : (Nat.toDigits 10 i).map ch ≠ [] := mt List.map_eq_nil_iff.1 Nat.toDigits_ne_nil
    have hindex := parseIndex_digits hdigits 0
    rw [Nat.ofDigitChars_ten_toDigits, Nat.mod_eq_of_lt hi, Nat.zero_mod] at hindex
    refine ⟨?_, List.cons_ne_nil _ _, ?_⟩
    · rw [Segment.text, Lwjson.segment, if_pos rfl, if_neg hne, hindex]
      rfl
    · rw [Segment.text, List.mem_cons, not_or]
      refine ⟨by decide, ?_⟩
      intro hmem
      obtain ⟨c, hc, heq⟩ := List.mem_map.1 hmem
      have hdigit := (isDigit_ch (hdigits c hc)).2
      rw [heq] at hdigit
      exact absurd hdigit (by decide)
  | any => exact h.elim

/-- A segment ends at the point or at the end of the path. -/
theorem span_point {w : List UInt8} (hw : ch '.' ∉ w) (rest : List UInt8) (hrest : ∀ c ∈ rest.head?, c = ch '.') :
    (w ++ rest).takeWhile (· ≠ ch '.') = w ∧ (w ++ rest).dropWhile (· ≠ ch '.') = rest := by
  have hall : ∀ c ∈ w, decide (c ≠ ch '.') = true := by
    intro c hc
    exact decide_eq_true fun heq => hw (heq ▸ hc)
  rw [List.takeWhile_append_of_pos hall, List.dropWhile_append_of_pos hall]
  cases rest with
  | nil => simp
  | cons c rest =>
    have hc := hrest c rfl
    simp [hc]

private theorem segments_text {seg : Segment} (h : seg.Usable) : segments seg.text = some [seg] := by
  obtain ⟨hsegment, htext, hpoint⟩ := h.segment
  have hspan := span_point hpoint [] fun _ hc => nomatch hc
  rw [List.append_nil] at hspan
  generalize seg.text = w at *
  obtain ⟨c, s, rfl⟩ := List.exists_cons_of_ne_nil htext
  rw [segments, hspan.1, hsegment, Option.bind_some]
  split
  · rw [if_neg]
    rintro rfl
    exact h
  next heq => cases heq.symm.trans hspan.2

private theorem segments_append {seg : Segment} (h : seg.Usable) {rest : List UInt8} (hrest : rest ≠ []) :
    segments (seg.text ++ ch '.' :: rest) = (segments rest).map (seg :: ·) := by
  obtain ⟨hsegment, htext, hpoint⟩ := h.segment
  have hspan := span_point hpoint (ch '.' :: rest) fun c hc => (Option.some.inj hc).symm
  generalize seg.text = w at *
  obtain ⟨c, s, rfl⟩ := List.exists_cons_of_ne_nil htext
  rw [List.cons_append] at hspan ⊢
  rw [segments, hspan.1, hsegment, Option.bind_some]
  split
  next heq => cases heq.symm.trans hspan.2
  next heq =>
    cases heq.symm.trans hspan.2
    split
    next => exact (hrest rfl).elim
    next => rfl

private theorem spell_ne_nil {ss : List Segment} (hne : ss ≠ []) (h : ∀ seg ∈ ss, seg.Usable) : spell ss ≠ [] := by
  rcases ss with _ | ⟨seg, _ | ⟨seg', ss⟩⟩
  · exact (hne rfl).elim
  · exact (h seg List.mem_cons_self).segment.2.1
  · exact List.append_ne_nil_of_right_ne_nil _ (List.cons_ne_nil _ _)

theorem segments_spell {ss : List Segment} (hne : ss ≠ []) (h : ∀ seg ∈ ss, seg.Usable) : segments (spell ss) = some ss := by
  induction ss with
  | nil => exact (hne rfl).elim
  | cons seg ss ih =>
    obtain ⟨hseg, hss⟩ := List.forall_mem_cons.1 h
    cases ss with
    | nil => exact segments_text hseg
    | cons seg' ss =>
      rw [spell, segments_append hseg (spell_ne_nil (List.cons_ne_nil _ _) hss), ih (List.cons_ne_nil _ _) hss]
      · rfl
      · exact List.cons_ne_nil _ _

/-! ### Nodes -/

/-- The node that the segments lead to, the names on the way being those of one child each. -/
inductive Follows : List Segment → Nat × Label R × Forest (Label R) → Nat × Label R × Forest (Label R) → Prop
  | nil {t : Nat × Label R × Forest (Label R)} : Follows [] t t
  | name {t c d : Nat × Label R × Forest (Label R)} {n : List UInt8} {ss : List Segment} (ht : t.2.1.type = .object)
    (hc : ((t.2.2.trees (t.1 + 1)).filter fun c => c.2.1.name.map Prod.fst = some n) = [c]) (h : Follows ss c d) :
    Follows (.name n :: ss) t d
  | index {t c d : Nat × Label R × Forest (Label R)} {i : Nat} {ss : List Segment} (ht : t.2.1.type = .array)
    (hc : (t.2.2.trees (t.1 + 1))[i]? = some c) (h : Follows ss c d) : Follows (.index i :: ss) t d

theorem Follows.found {ss : List Segment} {t d : Nat × Label R × Forest (Label R)} (h : Follows ss t d) : found ss t = [d.1] := by
  induction h with
  | nil => rfl
  | name ht hc _ ih => rw [Lwjson.found, if_pos ht, hc, List.flatMap_singleton, ih]
  | index ht hc _ ih => rw [Lwjson.found, if_pos ht, hc, Option.toList_some, List.flatMap_singleton, ih]

theorem Follows.append {ss ss' : List Segment} {t c d : Nat × Label R × Forest (Label R)} (h : Follows ss t c) (h' : Follows ss' c d) :
    Follows (ss ++ ss') t d := by
  induction h with
  | nil => exact h'
  | name ht hc _ ih => exact .name ht hc (ih h')
  | index ht hc _ ih => exact .index ht hc (ih h')

/-- The names of each object differ and are usable, and an index can count the children of each array. -/
def Addressable (tree : Tree R) : Prop :=
  ∀ t, Node tree t →
    (t.2.1.type = .object → ((t.2.2.trees (t.1 + 1)).map fun c => c.2.1.name.map Prod.fst).Nodup ∧
      ∀ c ∈ t.2.2.trees (t.1 + 1), ∀ n ∈ c.2.1.name, UsableName n.1) ∧
    (t.2.1.type = .array → (t.2.2.trees (t.1 + 1)).length ≤ 2 ^ 32)

theorem Segment.Usable.zero_not_mem {seg : Segment} (h : seg.Usable) : 0 ∉ seg.text := by
  cases seg with
  | name n => exact h.zero
  | index i =>
    rw [Segment.text, List.mem_cons, not_or]
    refine ⟨by decide, ?_⟩
    intro hmem
    obtain ⟨c, hc, heq⟩ := List.mem_map.1 hmem
    have hdigit := (isDigit_ch (Nat.isDigit_of_mem_toDigits (by decide) (by decide) hc)).2
    rw [heq] at hdigit
    exact absurd hdigit (by decide)
  | any => exact h.elim

private theorem zero_not_mem_spell {ss : List Segment} (h : ∀ seg ∈ ss, seg.Usable) : 0 ∉ spell ss := by
  induction ss with
  | nil => exact List.not_mem_nil
  | cons seg ss ih =>
    obtain ⟨hseg, hss⟩ := List.forall_mem_cons.1 h
    cases ss with
    | nil => exact hseg.zero_not_mem
    | cons seg' ss =>
      rw [spell, List.mem_append, List.mem_cons, not_or, not_or]
      · exact ⟨hseg.zero_not_mem, by decide, ih hss⟩
      · exact List.cons_ne_nil _ _

/-- A name that no other one has chooses one child. -/
theorem filter_of_nodup {α β : Type} [DecidableEq β] {l : List α} {f : α → β} (h : (l.map f).Nodup) {a : α} (ha : a ∈ l) :
    l.filter (fun b => f b = f a) = [a] := by
  induction l with
  | nil => cases ha
  | cons b l ih =>
    rw [List.map_cons, List.nodup_cons] at h
    rcases List.mem_cons.1 ha with rfl | ha
    · rw [List.filter_cons_of_pos (by simp), List.filter_eq_nil_iff.2]
      intro b hb heq
      exact h.1 (List.mem_map.2 ⟨b, hb, of_decide_eq_true heq⟩)
    · rw [List.filter_cons_of_neg, ih h.2 ha]
      intro heq
      exact h.1 (List.mem_map.2 ⟨a, ha, (of_decide_eq_true heq).symm⟩)

private theorem exists_follows [LwReal R] {o : LwjsonT R} {text : List UInt8} {tree : Tree R} (h : Shows o tree) (hdoc : Document text tree)
    (haddr : Addressable tree) {t : Nat × Label R × Forest (Label R)} (hnode : Node tree t) :
    ∃ ss, Follows ss (0, tree) t ∧ (∀ seg ∈ ss, seg.Usable) ∧ (t = (0, tree) ∨ ss ≠ []) := by
  induction hnode with
  | root => exact ⟨[], .nil, List.forall_mem_nil _, .inl rfl⟩
  | @child t c hnode hc ih =>
    obtain ⟨ss, hfollows, husable, -⟩ := ih
    obtain ⟨hobject, harray⟩ := haddr t hnode
    have hat := h.at_node hdoc hnode
    have hstep (seg : Segment) (hseg : seg.Usable) (hchild : Follows [seg] t c) :
        ∃ ss, Follows ss (0, tree) c ∧ (∀ seg ∈ ss, seg.Usable) ∧ (c = (0, tree) ∨ ss ≠ []) :=
      ⟨ss ++ [seg], hfollows.append hchild, List.forall_mem_append.2 ⟨husable, List.forall_mem_singleton.2 hseg⟩,
        .inr (List.append_ne_nil_of_right_ne_nil _ (List.cons_ne_nil _ _))⟩
    by_cases htype : IsContainer t.2.1.type
    · rcases htype with htype | htype
      · obtain ⟨hnodup, hnames⟩ := hobject htype
        obtain ⟨n, hn⟩ := Option.isSome_iff_exists.1 ((hat.nodes.of_mem_trees hc).1 htype)
        have hfilter := filter_of_nodup hnodup hc
        rw [hn] at hfilter
        exact hstep (.name n.1) (hnames c hc n hn) (.name htype hfilter .nil)
      · obtain ⟨i, hi, hget⟩ := List.mem_iff_getElem.1 hc
        exact hstep (.index i) (Nat.lt_of_lt_of_le hi (harray htype)) (.index htype (hget ▸ List.getElem?_eq_getElem hi) .nil)
    · have hnil := hat.zero
      rw [if_neg htype] at hnil
      rw [hnil] at hc
      cases hc

/-- **Where the names of each object differ and are usable, every node of a parsed text but the root is found by the path that the names and the numbers on the way to it spell.** -/
theorem lwjsonFind_spell [LwReal R] {o : LwjsonT R} {text : List UInt8} {tree : Tree R} (h : Shows o tree)
    (hdoc : Document text tree) (haddr : Addressable tree) {t : Nat × Label R × Forest (Label R)} (hnode : Node tree t)
    (hroot : t ≠ (0, tree)) :
    ∃ ss, Follows ss (0, tree) t ∧ ∀ junk, lwjsonFind o (some (spell ss ++ 0 :: junk)) = some (some (loc t.1)) := by
  obtain ⟨ss, hfollows, husable, hne⟩ := exists_follows h hdoc haddr hnode
  refine ⟨ss, hfollows, ?_⟩
  intro junk
  rw [lwjsonFind_spec h hdoc (zero_not_mem_spell husable), results, segments_spell (hne.resolve_left hroot) husable]
  dsimp only
  rw [hfollows.found]
  rfl

theorem lwjsonFind_spell_index :
    ∃ o', lwjsonParseEx (lwjsonInit [.zero] : LwjsonT ℚ) (some ([ch '[', ch '[', ch ']', ch ']'] ++ 0 :: [])) 4 = some (.ok, o') ∧
      ∃ ss, ∀ junk, lwjsonFind o' (some (spell ss ++ 0 :: junk)) = some (some (loc 1)) := by
  obtain ⟨r, o', heq, -, hcode⟩ := lwjsonParseEx_spec (lwjsonInit [.zero] : LwjsonT ℚ)
    (by decide : 0 ∉ [ch '[', ch '[', ch ']', ch ']']) (by decide : 4 ≠ 0) []
  have hparse : parseText (R := ℚ) 0 1 [ch '[', ch '[', ch ']', ch ']'] =
      .ok (⟨none, .array, .zero⟩, .cons ⟨none, .array, .zero⟩ .nil .nil) := rfl
  obtain ⟨rfl, hshows⟩ : r = .ok ∧ Shows o' (⟨none, .array, .zero⟩, .cons ⟨none, .array, .zero⟩ .nil .nil) := hcode
  have hnodes (t : Nat × Label ℚ × Forest (Label ℚ))
      (hnode : Node (⟨none, .array, .zero⟩, .cons ⟨none, .array, .zero⟩ .nil .nil) t) :
      t = (0, ⟨none, .array, .zero⟩, .cons ⟨none, .array, .zero⟩ .nil .nil) ∨ t = (1, ⟨none, .array, .zero⟩, .nil) := by
    induction hnode with
    | root => exact .inl rfl
    | child _ hc ih =>
      rcases ih with rfl | rfl
      · exact .inr (List.mem_singleton.1 hc)
      · cases hc
  have haddr : Addressable (R := ℚ) (⟨none, .array, .zero⟩, .cons ⟨none, .array, .zero⟩ .nil .nil) := by
    intro t hnode
    rcases hnodes t hnode with rfl | rfl
    · exact ⟨fun h => (nomatch h), fun _ => by decide⟩
    · exact ⟨fun h => (nomatch h), fun _ => by decide⟩
  obtain ⟨ss, -, hfind⟩ := lwjsonFind_spell hshows (document_of_parseText hparse).1 haddr
    (t := (1, ⟨none, .array, .zero⟩, .nil)) (.child .root List.mem_cons_self) (fun h => absurd (congrArg Prod.fst h) (by decide))
  exact ⟨o', heq, ss, hfind⟩
end Vedruino.Lwjson
