import Mathlib.Order.Lattice
import Concord.Go.Utf8

/-!
# Go maps

The contents of a map object. A Go map has no order of its own; the entries are
kept sorted by key, so that two maps with the same entries are equal and the
encoder, which sorts keys, writes the entries as they stand.

* `GoMap` carries the order of its keys, so a key occurs once.
* `get?_set`, `get?_delete`: the laws of assignment and `delete`.
* `ext_get?`: a map is determined by its lookups.
-/

namespace Go

instance linearOrderUInt8 : LinearOrder UInt8 where
  le_refl := UInt8.le_refl
  le_trans _ _ _ := UInt8.le_trans
  lt_iff_le_not_ge _ _ := by
    rw [UInt8.le_iff_toNat_le, UInt8.le_iff_toNat_le, UInt8.lt_iff_toNat_lt]
    omega
  le_antisymm _ _ := UInt8.le_antisymm
  le_total := UInt8.le_total
  toDecidableLE := inferInstance
  toDecidableLT := inferInstance
  toDecidableEq := inferInstance

structure GoMap (κ ν : Type) [LinearOrder κ] where
  entries : List (κ × ν)
  sorted : entries.Pairwise fun a b => a.1 < b.1

namespace GoMap

variable {κ ν : Type} [LinearOrder κ]

/-! ## Entry lists -/

def lookup (k : κ) : List (κ × ν) → Option ν
  | [] => none
  | (k', v) :: es => if k = k' then some v else lookup k es

def insert (k : κ) (v : ν) : List (κ × ν) → List (κ × ν)
  | [] => [(k, v)]
  | (k', v') :: es =>
    if k < k' then (k, v) :: (k', v') :: es
    else if k = k' then (k, v) :: es
    else (k', v') :: insert k v es

theorem lookup_insert (k k' : κ) (v : ν) (es : List (κ × ν)) :
    lookup k' (insert k v es) = if k' = k then some v else lookup k' es := by
  induction es with
  | nil => rfl
  | cons e es ih =>
    obtain ⟨j, w⟩ := e
    simp only [insert]
    split
    · simp only [lookup]
    · split
      · next h => subst h; simp only [lookup]; split <;> rfl
      · next h =>
        simp only [lookup, ih]
        split
        · next h' => subst h'; rw [if_neg (fun he => h he.symm)]
        · rfl

theorem mem_insert {k : κ} {v : ν} {es : List (κ × ν)} {e : κ × ν} (h : e ∈ insert k v es) :
    e = (k, v) ∨ e ∈ es := by
  induction es with
  | nil => simpa [insert] using h
  | cons e' es ih =>
    simp only [insert] at h
    split at h
    · simpa using h
    · split at h
      · rcases List.mem_cons.mp h with h | h
        · exact .inl h
        · exact .inr (List.mem_cons_of_mem _ h)
      · rcases List.mem_cons.mp h with h | h
        · exact .inr (h ▸ List.mem_cons_self)
        · rcases ih h with h | h
          · exact .inl h
          · exact .inr (List.mem_cons_of_mem _ h)

theorem insert_sorted {k : κ} {v : ν} {es : List (κ × ν)}
    (h : es.Pairwise fun a b => a.1 < b.1) :
    (insert k v es).Pairwise fun a b => a.1 < b.1 := by
  induction es with
  | nil => simp [insert]
  | cons e es ih =>
    rw [List.pairwise_cons] at h
    simp only [insert]
    split
    · next hlt =>
      refine List.pairwise_cons.mpr ⟨?_, List.pairwise_cons.mpr h⟩
      intro e' he'
      rcases List.mem_cons.mp he' with rfl | he'
      · exact hlt
      · exact lt_trans hlt (h.1 e' he')
    · split
      · next heq => subst heq; exact List.pairwise_cons.mpr h
      · next hnlt hne =>
        refine List.pairwise_cons.mpr ⟨?_, ih h.2⟩
        intro e' he'
        rcases mem_insert he' with rfl | he'
        · exact lt_of_le_of_ne (not_lt.mp hnlt) (Ne.symm hne)
        · exact h.1 e' he'

theorem lookup_eq_none_of_lt {k : κ} {es : List (κ × ν)} (h : ∀ e ∈ es, k < e.1) :
    lookup k es = none := by
  induction es with
  | nil => rfl
  | cons e es ih =>
    have he : k ≠ e.1 := ne_of_lt (h e List.mem_cons_self)
    rw [lookup, if_neg he]
    exact ih fun e' he' => h e' (List.mem_cons_of_mem _ he')

/-- Sorted entry lists with the same lookups are equal. -/
theorem eq_of_lookup_eq {es fs : List (κ × ν)} (hes : es.Pairwise fun a b => a.1 < b.1)
    (hfs : fs.Pairwise fun a b => a.1 < b.1) (h : ∀ k, lookup k es = lookup k fs) : es = fs := by
  induction es generalizing fs with
  | nil =>
    cases fs with
    | nil => rfl
    | cons f fs => exact absurd (h f.1) (by simp [lookup])
  | cons e es ih =>
    rw [List.pairwise_cons] at hes
    cases fs with
    | nil => exact absurd (h e.1) (by simp [lookup])
    | cons f fs =>
      rw [List.pairwise_cons] at hfs
      -- neither first key can be below the other, since its lookup would fail there
      have notBelow : ∀ {a b : κ × ν} {as bs : List (κ × ν)}, (∀ b' ∈ bs, b.1 < b'.1) →
          lookup a.1 (a :: as) = lookup a.1 (b :: bs) → ¬ a.1 < b.1 := by
        intro a b as bs hb heq hlt
        have hnone : lookup a.1 (b :: bs) = none := by
          refine lookup_eq_none_of_lt fun e' he' => ?_
          rcases List.mem_cons.mp he' with rfl | he'
          · exact hlt
          · exact lt_trans hlt (hb e' he')
        rw [hnone] at heq
        simp [lookup] at heq
      have hkey : e.1 = f.1 :=
        le_antisymm (not_lt.mp (notBelow hes.1 (h f.1).symm)) (not_lt.mp (notBelow hfs.1 (h e.1)))
      have hval : e.2 = f.2 := by
        have hh := h e.1
        rw [lookup, if_pos rfl, lookup, if_pos hkey] at hh
        exact Option.some.inj hh
      have htail : es = fs := by
        refine ih hes.2 hfs.2 fun k => ?_
        by_cases hk : k = e.1
        · rw [hk, lookup_eq_none_of_lt hes.1, hkey, lookup_eq_none_of_lt hfs.1]
        · have hh := h k
          rwa [lookup, if_neg hk, lookup, if_neg (fun he => hk (he.trans hkey.symm))] at hh
      rw [htail, Prod.ext hkey hval]

/-! ## Maps -/

/-- `make(map[κ]ν)`. -/
def empty : GoMap κ ν := ⟨[], List.Pairwise.nil⟩

/-- `v, ok := m[k]`. -/
def get? (m : GoMap κ ν) (k : κ) : Option ν := lookup k m.entries

/-- `m[k] = v`. -/
def set (m : GoMap κ ν) (k : κ) (v : ν) : GoMap κ ν := ⟨insert k v m.entries, insert_sorted m.sorted⟩

/-- `delete(m, k)`. -/
def delete (m : GoMap κ ν) (k : κ) : GoMap κ ν :=
  ⟨m.entries.filter fun e => e.1 ≠ k, m.sorted.filter _⟩

@[simp] theorem get?_empty (k : κ) : (empty : GoMap κ ν).get? k = none := rfl

@[simp] theorem get?_set (m : GoMap κ ν) (k k' : κ) (v : ν) :
    (m.set k v).get? k' = if k' = k then some v else m.get? k' := lookup_insert k k' v m.entries

@[simp] theorem get?_delete (m : GoMap κ ν) (k k' : κ) :
    (m.delete k).get? k' = if k' = k then none else m.get? k' := by
  simp only [get?, delete]
  induction m.entries with
  | nil => simp [lookup]
  | cons e es ih =>
    by_cases he : e.1 = k
    · rw [List.filter_cons_of_neg (by simpa using he), ih]
      by_cases hk : k' = k
      · rw [if_pos hk, if_pos hk]
      · rw [if_neg hk, if_neg hk, lookup, if_neg (fun h => hk (h.trans he))]
    · rw [List.filter_cons_of_pos (by simpa using he), lookup, ih, lookup]
      by_cases hk : k' = e.1
      · rw [if_pos hk, if_pos hk, if_neg (fun h => he (hk.symm.trans h))]
      · rw [if_neg hk, if_neg hk]

theorem mem_of_lookup {k : κ} {v : ν} {es : List (κ × ν)} (h : lookup k es = some v) :
    (k, v) ∈ es := by
  induction es with
  | nil => cases h
  | cons e es ih =>
    rw [lookup] at h
    split at h
    · next hk =>
      cases h
      rw [hk]
      exact List.mem_cons_self
    · exact List.mem_cons_of_mem _ (ih h)

theorem lookup_of_mem {e : κ × ν} {es : List (κ × ν)} (hs : es.Pairwise fun a b => a.1 < b.1)
    (h : e ∈ es) : lookup e.1 es = some e.2 := by
  induction es with
  | nil => cases h
  | cons f es ih =>
    rw [List.pairwise_cons] at hs
    rw [lookup]
    rcases List.mem_cons.mp h with rfl | h
    · rw [if_pos rfl]
    · rw [if_neg (ne_of_gt (hs.1 e h))]
      exact ih hs.2 h

/-- The entries of a map are its key-value pairs. -/
theorem mem_entries_iff {m : GoMap κ ν} {e : κ × ν} : e ∈ m.entries ↔ m.get? e.1 = some e.2 :=
  ⟨lookup_of_mem m.sorted, mem_of_lookup⟩


theorem ext_get? {m n : GoMap κ ν} (h : ∀ k, m.get? k = n.get? k) : m = n := by
  obtain ⟨es, hes⟩ := m
  obtain ⟨fs, hfs⟩ := n
  have : es = fs := eq_of_lookup_eq hes hfs h
  subst this
  rfl

end GoMap

end Go
