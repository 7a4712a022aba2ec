import Mathlib.Logic.Function.Basic

/-!
# Forests in linked cells

The nodes of a forest in cells that follow one another in preorder. A cell holds a label and two links, to its next sibling and to its first child. While a forest is being built there is an open node at each level down to the place where it grows, and the next link of an open node leads back to its parent.
-/

namespace Vedruino

inductive Forest (α : Type)
  | nil
  | cons (label : α) (kids rest : Forest α)
  deriving DecidableEq, Repr

namespace Forest

variable {α β C A : Type}

def size : Forest α → Nat
  | nil => 0
  | cons _ kids rest => kids.size + 1 + rest.size

def append : Forest α → Forest α → Forest α
  | nil, g => g
  | cons a kids rest, g => cons a kids (rest.append g)

def map (f : α → β) : Forest α → Forest β
  | nil => nil
  | cons a kids rest => cons (f a) (kids.map f) (rest.map f)

def All (p : α → Prop) : Forest α → Prop
  | nil => True
  | cons a kids rest => p a ∧ kids.All p ∧ rest.All p

/-- The trees of the forest with the numbers of their roots, the first of them numbered `n`. -/
def trees (n : Nat) : Forest α → List (Nat × α × Forest α)
  | nil => []
  | cons a kids rest => (n, a, kids) :: rest.trees (n + 1 + kids.size)

theorem append_assoc (f g h : Forest α) : (f.append g).append h = f.append (g.append h) := by
  induction f with
  | nil => rfl
  | cons a kids rest _ ih => rw [append, append, append, ih]

theorem append_nil (f : Forest α) : f.append nil = f := by
  induction f with
  | nil => rfl
  | cons a kids rest _ ih => rw [append, ih]

theorem size_append (f g : Forest α) : (f.append g).size = f.size + g.size := by
  induction f with
  | nil => exact (Nat.zero_add _).symm
  | cons a kids rest _ ih =>
    rw [append, size, size, ih]
    omega

theorem map_append (m : α → β) (f g : Forest α) : (f.append g).map m = (f.map m).append (g.map m) := by
  induction f with
  | nil => rfl
  | cons a kids rest _ ih => rw [append, map, map, append, ih]

theorem size_map (m : α → β) (f : Forest α) : (f.map m).size = f.size := by
  induction f with
  | nil => rfl
  | cons a kids rest ihkids ih => rw [map, size, size, ihkids, ih]

theorem All.of_map {m : α → β} {p : β → Prop} {q : α → Prop} (hpq : ∀ a, p (m a) → q a) {f : Forest α} (h : (f.map m).All p) :
    f.All q := by
  induction f with
  | nil => trivial
  | cons a kids rest ihkids ih => exact ⟨hpq a h.1, ihkids h.2.1, ih h.2.2⟩

theorem All.of_mem_trees {p : α → Prop} {f : Forest α} (h : f.All p) {n : Nat} {t : Nat × α × Forest α} (ht : t ∈ f.trees n) :
    p t.2.1 ∧ t.2.2.All p := by
  induction f generalizing n with
  | nil => cases ht
  | cons a kids rest _ ih =>
    obtain ⟨ha, hkids, hrest⟩ := h
    rcases List.mem_cons.1 ht with rfl | ht
    · exact ⟨ha, hkids⟩
    · exact ih hrest ht

/-- A forest that is not empty has a last tree. -/
theorem eq_nil_or_append (f : Forest α) : f = nil ∨ ∃ init a kids, f = append init (cons a kids nil) := by
  induction f with
  | nil => exact .inl rfl
  | cons a kids rest _ ih =>
    rcases ih with rfl | ⟨init, b, bkids, rfl⟩
    · exact .inr ⟨nil, a, kids, rfl⟩
    · exact .inr ⟨cons a kids init, b, bkids, rfl⟩

/-! ### Cells -/

variable (loc : Nat → A) (cell : α → Option A → Option A → C)

/-- The link to a forest whose first cell is numbered `n`, or `stop` where there is nothing to link to. -/
def link (n : Nat) (stop : Option A) : Forest α → Option A
  | nil => stop
  | cons _ _ _ => some (loc n)

/-- The cells from number `n` on hold the forest, and its last tree links to `stop`. -/
def Laid (get : A → Option C) (n : Nat) (stop : Option A) : Forest α → Prop
  | nil => True
  | cons a kids rest =>
    get (loc n) = some (cell a (link loc (n + 1 + kids.size) stop rest) (link loc (n + 1) none kids)) ∧
      Laid get (n + 1) none kids ∧ Laid get (n + 1 + kids.size) stop rest

theorem link_append (n : Nat) (stop : Option A) (f g : Forest α) :
    link loc n stop (f.append g) = link loc n (link loc (n + f.size) stop g) f := by
  cases f <;> rfl

theorem laid_append {get : A → Option C} {n : Nat} {stop : Option A} {f g : Forest α} :
    Laid loc cell get n stop (f.append g) ↔
      Laid loc cell get n (link loc (n + f.size) stop g) f ∧ Laid loc cell get (n + f.size) stop g := by
  induction f generalizing n with
  | nil => exact (iff_of_eq (true_and _)).symm
  | cons a kids rest _ ih =>
    have hsize : n + 1 + kids.size + rest.size = n + (cons a kids rest).size := by
      rw [size]
      omega
    rw [append, Laid, ih, link_append, hsize, Laid, and_assoc, and_assoc]

theorem laid_congr {get get' : A → Option C} {n : Nat} {stop : Option A} {f : Forest α}
    (h : ∀ i, n ≤ i → i < n + f.size → get' (loc i) = get (loc i)) (hf : Laid loc cell get n stop f) :
    Laid loc cell get' n stop f := by
  induction f generalizing n stop with
  | nil => trivial
  | cons a kids rest ihkids ih =>
    obtain ⟨hcell, hkids, hrest⟩ := hf
    rw [size] at h
    refine ⟨?_, ihkids ?_ hkids, ih ?_ hrest⟩
    · rw [h n (by omega) (by omega)]
      exact hcell
    · intro i hn hi
      exact h i (by omega) (by omega)
    · intro i hn hi
      exact h i (by omega) (by omega)

/-- The same forest with other labels in other cells. -/
theorem laid_map {B D : Type} {cell' : B → Option A → Option A → D} {g : C → D} {m : β → α} {m' : β → B} {p : β → Prop}
    {get : A → Option C} {n : Nat} {stop : Option A} {f : Forest β}
    (hcell : ∀ b s c, p b → g (cell (m b) s c) = cell' (m' b) s c) (hf : f.All p) (h : Laid loc cell get n stop (f.map m)) :
    Laid loc cell' (fun x => (get x).map g) n stop (f.map m') := by
  induction f generalizing n stop with
  | nil => trivial
  | cons b kids rest ihkids ih =>
    obtain ⟨hget, hkids, hrest⟩ := h
    obtain ⟨hb, hpkids, hprest⟩ := hf
    have hlink (n : Nat) (stop : Option A) (f : Forest β) : link loc n stop (f.map m) = link loc n stop (f.map m') := by
      cases f <;> rfl
    rw [size_map] at hget hrest
    refine ⟨?_, ihkids hpkids hkids, ?_⟩
    · dsimp only
      rw [size_map, hget, Option.map_some, hcell b _ _ hb, hlink, hlink]
    · rw [size_map]
      exact ih hprest hrest

/-- The forest says what its cells are. -/
theorem laid_unique {get get' : A → Option C} {n : Nat} {stop : Option A} {f : Forest α} (h : Laid loc cell get n stop f)
    (h' : Laid loc cell get' n stop f) {i : Nat} (hn : n ≤ i) (hi : i < n + f.size) : get (loc i) = get' (loc i) := by
  induction f generalizing n stop with
  | nil => exact (Nat.not_lt.2 hn hi).elim
  | cons a kids rest ihkids ih =>
    obtain ⟨hget, hkids, hrest⟩ := h
    obtain ⟨hget', hkids', hrest'⟩ := h'
    rw [size] at hi
    rcases Nat.eq_or_lt_of_le hn with rfl | hlt
    · exact hget.trans hget'.symm
    · by_cases hin : i < n + 1 + kids.size
      · exact ihkids hkids hkids' hlt hin
      · exact ih hrest hrest' (by omega) (by omega)

/-! ### Walks along the siblings -/

variable (next : C → Option A)

/-- The last of the siblings from a cell on; `none` stands for a bad link, or for too little fuel. -/
def lastFrom (get : A → Option C) : Nat → A → Option A
  | 0, _ => none
  | fuel + 1, a =>
    match get a with
    | none => none
    | some c =>
      match next c with
      | none => some a
      | some b => lastFrom get fuel b

/-- The sibling that stands `k` places after a link. -/
def nthFrom (get : A → Option C) : Nat → Option A → Option (Option A)
  | 0, a => some a
  | _ + 1, none => some none
  | k + 1, some a =>
    match get a with
    | none => none
    | some c => nthFrom get k (next c)

/-- What the first sibling gives for which the visit gives something. -/
def firstFrom (get : A → Option C) (visit : A → C → Option (Option β)) : Nat → Option A → Option (Option β)
  | _, none => some none
  | 0, some _ => none
  | fuel + 1, some a =>
    match get a with
    | none => none
    | some c =>
      match visit a c with
      | none => none
      | some (some b) => some (some b)
      | some none => firstFrom get visit fuel (next c)

variable {next} {get : A → Option C} (hnext : ∀ a s c, next (cell a s c) = s)
include hnext

theorem lastFrom_append {fuel n : Nat} {init : Forest α} {a : α} {kids : Forest α}
    (h : Laid loc cell get n none (init.append (cons a kids nil))) (hfuel : init.size < fuel) {b : A}
    (hb : link loc n none (init.append (cons a kids nil)) = some b) :
    lastFrom next get fuel b = some (loc (n + init.size)) := by
  induction init generalizing n fuel b with
  | nil =>
    obtain ⟨hcell, -⟩ := h
    obtain ⟨fuel, rfl⟩ := Nat.exists_eq_succ_of_ne_zero (Nat.ne_of_gt hfuel)
    cases hb
    rw [lastFrom, hcell]
    dsimp only
    rw [hnext]
    rfl
  | cons c ckids rest _ ih =>
    obtain ⟨hcell, -, hrest⟩ := h
    obtain ⟨fuel, rfl⟩ := Nat.exists_eq_succ_of_ne_zero (Nat.ne_of_gt (Nat.zero_lt_of_lt hfuel))
    rw [size] at hfuel
    cases hb
    have hlink : ∃ d, link loc (n + 1 + ckids.size) none (rest.append (cons a kids nil)) = some d := by
      rw [link_append]
      cases rest <;> exact ⟨_, rfl⟩
    obtain ⟨d, hd⟩ := hlink
    have hrestfuel : rest.size < fuel := by omega
    have hlast := ih hrest hrestfuel hd
    rw [lastFrom, hcell]
    dsimp only
    rw [hnext, hd]
    dsimp only
    rw [hlast, size]
    congr 2
    omega

omit hnext

/-! The walks read cells of which `g` gives the ones that hold the forest. -/

section

variable {D : Type} {g : D → C} {read : A → Option D} {next : D → Option A}

theorem nthFrom_laid (hnext : ∀ d a s c, g d = cell a s c → next d = s) {n : Nat} {f : Forest α}
    (h : Laid loc cell (fun x => (read x).map g) n none f) (k : Nat) :
    nthFrom next read k (link loc n none f) = some ((f.trees n)[k]?.map fun t => loc t.1) := by
  induction f generalizing n k with
  | nil => cases k <;> rfl
  | cons a kids rest _ ih =>
    obtain ⟨hcell, -, hrest⟩ := h
    obtain ⟨d, hd, hcell⟩ := Option.map_eq_some_iff.1 hcell
    cases k with
    | zero => rfl
    | succ k =>
      rw [link, nthFrom, hd]
      dsimp only
      rw [hnext d a _ _ hcell, ih hrest, trees, List.getElem?_cons_succ]

theorem firstFrom_laid (hnext : ∀ d a s c, g d = cell a s c → next d = s) {visit : A → D → Option (Option β)}
    {found : Nat × α × Forest α → Option β} {fuel n : Nat} {f : Forest α}
    (h : Laid loc cell (fun x => (read x).map g) n none f) (hfuel : f.size ≤ fuel)
    (hvisit : ∀ t ∈ f.trees n, ∀ d s, read (loc t.1) = some d → g d = cell t.2.1 s (link loc (t.1 + 1) none t.2.2) →
      Laid loc cell (fun x => (read x).map g) (t.1 + 1) none t.2.2 → visit (loc t.1) d = some (found t)) :
    firstFrom next read visit fuel (link loc n none f) = some ((f.trees n).findSome? found) := by
  induction f generalizing n fuel with
  | nil => cases fuel <;> rfl
  | cons a kids rest _ ih =>
    obtain ⟨hcell, hkids, hrest⟩ := h
    obtain ⟨d, hd, hcell⟩ := Option.map_eq_some_iff.1 hcell
    rw [size] at hfuel
    obtain ⟨fuel, rfl⟩ := Nat.exists_eq_succ_of_ne_zero (n := fuel) (by omega)
    have hfirst := hvisit (n, a, kids) List.mem_cons_self d _ hd hcell hkids
    rw [link, firstFrom, hd]
    dsimp only at hfirst ⊢
    rw [hfirst, trees, List.findSome?_cons]
    cases found (n, a, kids) with
    | some b => rfl
    | none =>
      dsimp only
      rw [hnext d a _ _ hcell]
      exact ih hrest (by omega) fun t ht => hvisit t (List.mem_cons_of_mem _ ht)

/-- The cells of a tree of the forest. -/
theorem laid_of_mem_trees {get : A → Option C} {n : Nat} {stop : Option A} {f : Forest α} (h : Laid loc cell get n stop f)
    {t : Nat × α × Forest α} (ht : t ∈ f.trees n) :
    (∃ s, get (loc t.1) = some (cell t.2.1 s (link loc (t.1 + 1) none t.2.2))) ∧ Laid loc cell get (t.1 + 1) none t.2.2 := by
  induction f generalizing n with
  | nil => cases ht
  | cons a kids rest _ ih =>
    obtain ⟨hcell, hkids, hrest⟩ := h
    rcases List.mem_cons.1 ht with rfl | ht
    · exact ⟨⟨_, hcell⟩, hkids⟩
    · exact ih hrest ht

end

/-! ### Open nodes -/

/-- The number of cells of the open nodes, innermost first, each with the children it has so far. -/
def used : List (α × Forest α) → Nat
  | [] => 0
  | (_, done) :: outer => used outer + 1 + done.size

/-- The link of an open node back to its parent. -/
def parent : List (α × Forest α) → Option A
  | [] => none
  | _ :: outer => some (loc (used outer))

/-- The cells hold the open nodes, and the children of the innermost one link to `stop`. -/
def Opened (get : A → Option C) (stop : Option A) : List (α × Forest α) → Prop
  | [] => True
  | (a, done) :: outer =>
    Opened get (some (loc (used outer))) outer ∧
      get (loc (used outer)) = some (cell a (parent loc outer) (link loc (used outer + 1) stop done)) ∧
      Laid loc cell get (used outer + 1) stop done

theorem opened_congr {get get' : A → Option C} {stop : Option A} {z : List (α × Forest α)}
    (h : ∀ i, i < used z → get' (loc i) = get (loc i)) (hz : Opened loc cell get stop z) : Opened loc cell get' stop z := by
  induction z generalizing stop with
  | nil => trivial
  | cons frame outer ih =>
    obtain ⟨a, done⟩ := frame
    obtain ⟨houter, hcell, hdone⟩ := hz
    rw [used] at h
    refine ⟨ih (fun i hi => h i (by omega)) houter, ?_, laid_congr loc cell ?_ hdone⟩
    · rw [h _ (by omega)]
      exact hcell
    · intro i _ hi
      exact h i (by omega)

/-- A tree whose cells come next, and which the innermost open node links to, is its last child. -/
theorem opened_attach {a b : α} {done kids : Forest α} {outer : List (α × Forest α)} {m : Nat} (hm : m = used ((a, done) :: outer))
    (h : Opened loc cell get (some (loc m)) ((a, done) :: outer))
    (hcell : get (loc m) = some (cell b none (link loc (m + 1) none kids))) (hkids : Laid loc cell get (m + 1) none kids) :
    Opened loc cell get none ((a, done.append (cons b kids nil)) :: outer) := by
  obtain ⟨houter, hopen, hdone⟩ := h
  rw [used] at hm
  subst hm
  refine ⟨houter, ?_, (laid_append loc cell).2 ⟨hdone, hcell, hkids, trivial⟩⟩
  rw [link_append]
  exact hopen

variable {loc} (hloc : Function.Injective loc)
include hloc

/-- The first child of an open node is linked from its cell. -/
theorem opened_link_nil {get' : A → Option C} {a : α} {outer : List (α × Forest α)} {stop : Option A}
    (h : Opened loc cell get none ((a, nil) :: outer))
    (hcell : get' (loc (used outer)) = some (cell a (parent loc outer) stop))
    (hrest : ∀ x, x ≠ loc (used outer) → get' x = get x) : Opened loc cell get' stop ((a, nil) :: outer) := by
  refine ⟨opened_congr loc cell ?_ h.1, hcell, trivial⟩
  intro i hi
  apply hrest
  exact fun heq => Nat.ne_of_lt hi (hloc heq)

/-- A child that is not the first is linked from the cell of the child before it. -/
theorem opened_link_append {get' : A → Option C} {a b : α} {init kids : Forest α} {outer : List (α × Forest α)} {stop : Option A}
    {n : Nat} (hn : n = used outer + 1 + init.size)
    (h : Opened loc cell get none ((a, init.append (cons b kids nil)) :: outer))
    (hcell : get' (loc n) = some (cell b stop (link loc (n + 1) none kids)))
    (hrest : ∀ x, x ≠ loc n → get' x = get x) :
    Opened loc cell get' stop ((a, init.append (cons b kids nil)) :: outer) := by
  obtain ⟨houter, hopen, hdone⟩ := h
  obtain ⟨hinit, -, hkids, -⟩ := (laid_append loc cell).1 hdone
  have hsame {i : Nat} (hi : i ≠ n) : get' (loc i) = get (loc i) := hrest _ fun heq => hi (hloc heq)
  subst hn
  refine ⟨opened_congr loc cell (fun i hi => hsame (by omega)) houter, ?_, (laid_append loc cell).2 ⟨?_, hcell, ?_, trivial⟩⟩
  · rw [hsame (by omega), hopen, link_append, link_append]
    rfl
  · exact laid_congr loc cell (fun i _ hi => hsame (by omega)) hinit
  · exact laid_congr loc cell (fun i _ hi => hsame (by omega)) hkids

end Forest

end Vedruino
