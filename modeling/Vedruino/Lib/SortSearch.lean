import Mathlib.Data.List.Sort

/-!
# Sorting and searching with a comparison function

`qsort` and `bsearch` of the C library, for any comparison function that orders its arguments. Which of several equal elements comes first, or is found, is left open.
-/

namespace Vedruino

variable {α : Type*}

/-- A comparison function that orders: its result is not positive where the first argument may come first. -/
structure Orders (cmp : α → α → Int) : Prop where
  total : ∀ a b, cmp a b ≤ 0 ∨ cmp b a ≤ 0
  trans : ∀ a b c, cmp a b ≤ 0 → cmp b c ≤ 0 → cmp a c ≤ 0

def SortedBy (cmp : α → α → Int) (xs : List α) : Prop := xs.Pairwise fun a b => cmp a b ≤ 0

/-- `qsort` and `bsearch`, as far as they are specified. -/
structure SortSearch (α : Type*) where
  qsort : (α → α → Int) → List α → List α
  bsearch : (α → α → Int) → α → List α → Option α
  qsort_perm : ∀ cmp xs, (qsort cmp xs).Perm xs
  qsort_sorted : ∀ cmp xs, Orders cmp → SortedBy cmp (qsort cmp xs)
  bsearch_some : ∀ cmp key xs a, bsearch cmp key xs = some a → a ∈ xs ∧ cmp key a = 0
  bsearch_none : ∀ cmp key xs, Orders cmp → SortedBy cmp xs → bsearch cmp key xs = none → ∀ a ∈ xs, cmp key a ≠ 0

namespace SortSearch

variable (S : SortSearch α) {cmp : α → α → Int}

theorem exists_of_mem (hcmp : Orders cmp) {xs : List α} {key a : α} (ha : a ∈ xs) (heq : cmp key a = 0) :
    ∃ b ∈ xs, cmp key b = 0 ∧ S.bsearch cmp key (S.qsort cmp xs) = some b := by
  match hfind : S.bsearch cmp key (S.qsort cmp xs) with
  | none =>
    have hmem : a ∈ S.qsort cmp xs := (S.qsort_perm cmp xs).mem_iff.2 ha
    exact absurd heq (S.bsearch_none cmp key _ hcmp (S.qsort_sorted cmp xs hcmp) hfind a hmem)
  | some b =>
    obtain ⟨hb, hkey⟩ := S.bsearch_some cmp key _ b hfind
    exact ⟨b, (S.qsort_perm cmp xs).mem_iff.1 hb, hkey, rfl⟩

end SortSearch

/-- `bsearch` with the position that its result points to. -/
structure PtrSearch (α : Type*) where
  bsearch : (α → α → Int) → α → List α → Option Nat
  bsearch_some : ∀ cmp key xs i, bsearch cmp key xs = some i → ∃ a, xs[i]? = some a ∧ cmp key a = 0
  bsearch_none : ∀ cmp key xs, Orders cmp → SortedBy cmp xs → bsearch cmp key xs = none → ∀ a ∈ xs, cmp key a ≠ 0

/-- In what is sorted, the search finds a position exactly where there is an equal element. -/
theorem PtrSearch.isSome_iff (P : PtrSearch α) {cmp : α → α → Int} (hcmp : Orders cmp) {xs : List α} (hxs : SortedBy cmp xs)
    (key : α) : (P.bsearch cmp key xs).isSome = true ↔ ∃ a ∈ xs, cmp key a = 0 := by
  constructor
  · intro h
    obtain ⟨i, hi⟩ := Option.isSome_iff_exists.1 h
    obtain ⟨a, ha, heq⟩ := P.bsearch_some cmp key xs i hi
    exact ⟨a, List.mem_of_getElem? ha, heq⟩
  · rintro ⟨a, ha, heq⟩
    rw [Option.isSome_iff_ne_none]
    intro hnone
    exact P.bsearch_none cmp key xs hcmp hxs hnone a ha heq

def plainPtrSearch (α : Type*) : PtrSearch α where
  bsearch cmp key xs := xs.findIdx? fun a => cmp key a = 0
  bsearch_some cmp key xs i h := by
    obtain ⟨hi, heq, -⟩ := List.findIdx?_eq_some_iff_getElem.1 h
    exact ⟨xs[i], List.getElem?_eq_getElem hi, by simpa using heq⟩
  bsearch_none cmp key xs _ _ h a ha := by simpa using List.findIdx?_eq_none_iff.1 h a ha

/-- Insertion sort and a search from the front. -/
def plainSortSearch (α : Type*) : SortSearch α where
  qsort cmp xs := xs.insertionSort fun a b => cmp a b ≤ 0
  bsearch cmp key xs := xs.find? fun a => cmp key a = 0
  qsort_perm cmp xs := List.perm_insertionSort _ xs
  qsort_sorted cmp xs hcmp := by
    have htotal : Std.Total fun a b => cmp a b ≤ 0 := ⟨hcmp.total⟩
    have htrans : IsTrans α fun a b => cmp a b ≤ 0 := ⟨hcmp.trans⟩
    exact List.pairwise_insertionSort _ xs
  bsearch_some cmp key xs a h := ⟨List.mem_of_find?_eq_some h, by simpa using List.find?_some h⟩
  bsearch_none cmp key xs _ _ h a ha := by simpa using List.find?_eq_none.1 h a ha

end Vedruino
