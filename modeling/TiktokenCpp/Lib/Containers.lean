import Mathlib.Data.List.Basic
import Mathlib.Data.List.Nodup
import Mathlib.Data.List.Perm.Basic
import Mathlib.Data.List.Sort
import Mathlib.Order.Lattice

/-!
# Associative containers

`UnorderedMap` is a hash map seen from outside: its entries in iteration
order, with distinct keys. The order is whatever the hash makes it, so facts
about a map that must not depend on it are stated over its entries as a set
(`find?_eq_some_iff`) or for every permutation (`find?_perm`).

`OrderedSet` is a sorted set: its elements in increasing order.
-/

-- ---------------------------------------------------------------------------
-- Hash maps
-- ---------------------------------------------------------------------------

/-- A hash map: entries in iteration order, no key twice. -/
structure UnorderedMap (κ ν : Type) where
  entries : List (κ × ν)
  nodup : (entries.map Prod.fst).Nodup

namespace UnorderedMap

variable {κ ν : Type} [DecidableEq κ]

/-- The value stored under a key, if any. -/
def find? (m : UnorderedMap κ ν) (k : κ) : Option ν :=
  (m.entries.find? fun e => e.1 = k).map Prod.snd

/-- The number of entries. -/
def size (m : UnorderedMap κ ν) : Nat := m.entries.length

omit [DecidableEq κ] in
theorem eq_of_mem {m : UnorderedMap κ ν} {k : κ} {v w : ν} (hv : (k, v) ∈ m.entries)
    (hw : (k, w) ∈ m.entries) : v = w := by
  have h := List.inj_on_of_nodup_map m.nodup hv hw rfl
  exact congrArg Prod.snd h

theorem find?_eq_some_iff {m : UnorderedMap κ ν} {k : κ} {v : ν} :
    m.find? k = some v ↔ (k, v) ∈ m.entries := by
  rw [find?, Option.map_eq_some_iff]
  constructor
  · rintro ⟨⟨k', v'⟩, hfind, rfl⟩
    have hk : k' = k := by simpa using List.find?_some hfind
    exact hk ▸ List.mem_of_find?_eq_some hfind
  · intro hmem
    cases hfind : m.entries.find? fun e => e.1 = k with
    | none =>
      have hno := List.find?_eq_none.mp hfind (k, v) hmem
      simp at hno
    | some e =>
      obtain ⟨k', w⟩ := e
      have hk : k' = k := by simpa using List.find?_some hfind
      subst hk
      exact ⟨_, rfl, eq_of_mem (List.mem_of_find?_eq_some hfind) hmem⟩

theorem find?_eq_none_iff {m : UnorderedMap κ ν} {k : κ} :
    m.find? k = none ↔ ∀ v, (k, v) ∉ m.entries := by
  rw [Option.eq_none_iff_forall_ne_some]
  exact forall_congr' fun v => not_congr find?_eq_some_iff

/-- Lookups do not see the iteration order. -/
theorem find?_perm {m m' : UnorderedMap κ ν} (h : m.entries.Perm m'.entries) (k : κ) :
    m.find? k = m'.find? k := by
  apply Option.ext
  intro v
  rw [find?_eq_some_iff, find?_eq_some_iff, h.mem_iff]

/-- The same entries in another iteration order. -/
def reorder (m : UnorderedMap κ ν) (es : List (κ × ν)) (h : es.Perm m.entries) :
    UnorderedMap κ ν where
  entries := es
  nodup := (h.map Prod.fst).nodup_iff.mpr m.nodup

/-- The map without entries. -/
def empty : UnorderedMap κ ν := ⟨[], List.nodup_nil⟩

/-- Add an entry, unless the key has one already. -/
def emplace (m : UnorderedMap κ ν) (k : κ) (v : ν) : UnorderedMap κ ν :=
  if h : k ∈ m.entries.map Prod.fst then m
  else ⟨m.entries ++ [(k, v)], by
    rw [List.map_append, List.nodup_append]
    refine ⟨m.nodup, List.nodup_singleton k, fun a ha b hb hab => h ?_⟩
    rw [List.map_cons, List.map_nil, List.mem_singleton] at hb
    rw [hab, hb] at ha
    exact ha⟩

/-- Emplacing keeps what is there and fills what is not. -/
theorem find?_emplace (m : UnorderedMap κ ν) (k k' : κ) (v : ν) :
    (m.emplace k v).find? k' = (m.find? k').or (if k = k' then some v else none) := by
  rw [emplace]
  split
  · next hmem =>
    cases hf : m.find? k' with
    | some w => rfl
    | none =>
      have hne : k ≠ k' := by
        rintro rfl
        obtain ⟨⟨k₀, w⟩, he, rfl⟩ := List.mem_map.mp hmem
        exact find?_eq_none_iff.mp hf w he
      simp [hne]
  · simp [find?, List.find?_append, List.find?_singleton, Option.map_or]

/-- Indexing: the value under a key, which is inserted with the value `d` if
the map does not have it. -/
def getOrInsert (m : UnorderedMap κ ν) (k : κ) (d : ν) : ν × UnorderedMap κ ν :=
  match m.find? k with
  | some v => (v, m)
  | none => (d, m.emplace k d)

theorem getOrInsert_of_find? {m : UnorderedMap κ ν} {k : κ} {v : ν} (h : m.find? k = some v)
    (d : ν) : m.getOrInsert k d = (v, m) := by
  rw [getOrInsert, h]

/-- Emplace a list of entries, one after the other. -/
def emplaceAll (m : UnorderedMap κ ν) (es : List (κ × ν)) : UnorderedMap κ ν :=
  es.foldl (fun m e => m.emplace e.1 e.2) m

/-- After emplacing a list, a key holds its old value or else the first one
the list gives it. -/
theorem find?_emplaceAll (m : UnorderedMap κ ν) (es : List (κ × ν)) (k : κ) :
    (m.emplaceAll es).find? k =
      (m.find? k).or ((es.find? fun e => e.1 = k).map Prod.snd) := by
  induction es generalizing m with
  | nil => simp [emplaceAll]
  | cons e es ih =>
    rw [emplaceAll, List.foldl_cons, ← emplaceAll, ih, find?_emplace, Option.or_assoc,
      List.find?_cons]
    by_cases hk : e.1 = k <;> simp [hk]

/-- A map filled from a list has entries of the list only. -/
theorem mem_of_find?_emplaceAll {es : List (κ × ν)} {k : κ} {v : ν}
    (h : (empty.emplaceAll es).find? k = some v) : (k, v) ∈ es := by
  rw [find?_emplaceAll] at h
  have hfind : (es.find? fun e => e.1 = k).map Prod.snd = some v := by
    simpa [find?, empty] using h
  obtain ⟨⟨k', v'⟩, hfound, rfl⟩ := Option.map_eq_some_iff.mp hfind
  obtain rfl : k' = k := by simpa using List.find?_some hfound
  exact List.mem_of_find?_eq_some hfound

/-- Emplacing into the empty map a list whose keys are distinct finds every
entry of the list. -/
theorem find?_emplaceAll_of_nodup {es : List (κ × ν)} (hes : (es.map Prod.fst).Nodup)
    {k : κ} {v : ν} : (empty.emplaceAll es).find? k = some v ↔ (k, v) ∈ es := by
  have h := find?_eq_some_iff (m := ⟨es, hes⟩) (k := k) (v := v)
  rw [find?_emplaceAll]
  simpa [find?, empty] using h

theorem entries_emplaceAll (m : UnorderedMap κ ν) {es : List (κ × ν)}
    (h : ((m.entries ++ es).map Prod.fst).Nodup) : (m.emplaceAll es).entries = m.entries ++ es := by
  induction es generalizing m with
  | nil => simp [emplaceAll]
  | cons e es ih =>
    have hfresh : e.1 ∉ m.entries.map Prod.fst := by
      rw [List.map_append, List.nodup_append] at h
      intro hmem
      exact h.2.2 _ hmem _ (List.mem_map_of_mem (List.mem_cons_self ..)) rfl
    have hadd : (m.emplace e.1 e.2).entries = m.entries ++ [e] := by
      rw [emplace, dif_neg hfresh]
    rw [emplaceAll, List.foldl_cons, ← emplaceAll, ih, hadd, List.append_assoc, List.singleton_append]
    rwa [hadd, List.append_assoc, List.singleton_append]

/-- Entries with distinct keys stand in the map in the order in which they went
into the empty one. -/
theorem entries_emplaceAll_of_nodup {es : List (κ × ν)} (h : (es.map Prod.fst).Nodup) :
    ((empty : UnorderedMap κ ν).emplaceAll es).entries = es :=
  entries_emplaceAll empty h

omit [DecidableEq κ] in
/-- A map filled with the swapped entries of another gives back a key that has
the value. -/
theorem mem_of_find?_swap [DecidableEq ν] {es : List (κ × ν)} {k : κ} {v : ν}
    (h : ((empty : UnorderedMap ν κ).emplaceAll (es.map Prod.swap)).find? v = some k) :
    (k, v) ∈ es := by
  obtain ⟨⟨k, w⟩, hmem, hswap⟩ := List.mem_map.mp (mem_of_find?_emplaceAll h)
  cases hswap
  exact hmem

omit [DecidableEq κ] in
/-- It has a key for every value. -/
theorem exists_find?_swap [DecidableEq ν] {es : List (κ × ν)} {k : κ} {v : ν} (h : (k, v) ∈ es) :
    ∃ k', ((empty : UnorderedMap ν κ).emplaceAll (es.map Prod.swap)).find? v = some k' := by
  rw [find?_emplaceAll]
  cases hfound : (es.map Prod.swap).find? fun e => e.1 = v with
  | none =>
    have hno := List.find?_eq_none.mp hfound (v, k) (List.mem_map.mpr ⟨(k, v), h, rfl⟩)
    simp at hno
  | some e => exact ⟨e.2, by simp [find?, empty]⟩

end UnorderedMap

/-- The order in which a map built by a program is walked through: some
permutation of the order in which the entries went in. -/
structure IterationOrder where
  walk : {κ ν : Type} → List (κ × ν) → List (κ × ν)
  perm : ∀ {κ ν : Type} (es : List (κ × ν)), (walk es).Perm es

/-- The order of insertion. -/
def IterationOrder.insertion : IterationOrder := ⟨id, fun _ => List.Perm.refl _⟩

/-- The map as a program finds it that walks through it in the order `o`. -/
def UnorderedMap.shuffle {κ ν : Type} (m : UnorderedMap κ ν) (o : IterationOrder) :
    UnorderedMap κ ν :=
  m.reorder (o.walk m.entries) (o.perm m.entries)

@[simp] theorem UnorderedMap.mem_shuffle {κ ν : Type} {m : UnorderedMap κ ν} {o : IterationOrder}
    {e : κ × ν} : e ∈ (m.shuffle o).entries ↔ e ∈ m.entries :=
  (o.perm m.entries).mem_iff

@[simp] theorem UnorderedMap.find?_shuffle {κ ν : Type} [DecidableEq κ] (m : UnorderedMap κ ν)
    (o : IterationOrder) (k : κ) : (m.shuffle o).find? k = m.find? k :=
  UnorderedMap.find?_perm (o.perm m.entries) k

-- ---------------------------------------------------------------------------
-- Sorted sets
-- ---------------------------------------------------------------------------

/-- A sorted set: elements in increasing order. -/
structure OrderedSet (α : Type) [LinearOrder α] where
  elems : List α
  sorted : elems.Pairwise (· < ·)

namespace OrderedSet

variable {α : Type} [LinearOrder α]

instance : Membership α (OrderedSet α) where
  mem s a := a ∈ s.elems

instance (a : α) (s : OrderedSet α) : Decidable (a ∈ s) :=
  inferInstanceAs (Decidable (a ∈ s.elems))

theorem mem_def {a : α} {s : OrderedSet α} : a ∈ s ↔ a ∈ s.elems := Iff.rfl

/-- Sets with the same elements are the same. -/
theorem eq_of_mem_iff {s t : OrderedSet α} (h : ∀ a, a ∈ s ↔ a ∈ t) : s = t := by
  cases s
  cases t
  congr 1
  exact List.Pairwise.eq_of_mem_iff (by assumption) (by assumption) fun {a} => h a

/-- The set without elements. -/
def empty : OrderedSet α := ⟨[], List.Pairwise.nil⟩

@[simp] theorem not_mem_empty (a : α) : a ∉ (empty : OrderedSet α) := List.not_mem_nil

/-- Insertion into a sorted list. -/
def insertSorted (a : α) : List α → List α
  | [] => [a]
  | b :: l => if a < b then a :: b :: l else if a = b then b :: l else b :: insertSorted a l

theorem mem_insertSorted {a b : α} {l : List α} : b ∈ insertSorted a l ↔ b = a ∨ b ∈ l := by
  induction l with
  | nil => simp [insertSorted]
  | cons c l ih =>
    rw [insertSorted]
    split
    · rw [List.mem_cons]
    · split
      · next heq => simp [heq]
      · rw [List.mem_cons, List.mem_cons, ih]
        exact or_left_comm

theorem pairwise_insertSorted {a : α} {l : List α} (h : l.Pairwise (· < ·)) :
    (insertSorted a l).Pairwise (· < ·) := by
  induction l with
  | nil => exact List.pairwise_singleton _ _
  | cons b l ih =>
    obtain ⟨hb, hl⟩ := List.pairwise_cons.mp h
    rw [insertSorted]
    split
    · next hab =>
      refine List.pairwise_cons.mpr ⟨?_, h⟩
      intro c hc
      rcases List.mem_cons.mp hc with rfl | hc
      · exact hab
      · exact lt_trans hab (hb c hc)
    · split
      · exact h
      · next hnlt hne =>
        refine List.pairwise_cons.mpr ⟨?_, ih hl⟩
        intro c hc
        rcases mem_insertSorted.mp hc with rfl | hc
        · exact lt_of_le_of_ne (not_lt.mp hnlt) (Ne.symm hne)
        · exact hb c hc

/-- Add an element. -/
def insert (s : OrderedSet α) (a : α) : OrderedSet α :=
  ⟨insertSorted a s.elems, pairwise_insertSorted s.sorted⟩

@[simp] theorem mem_insert {s : OrderedSet α} {a b : α} : b ∈ s.insert a ↔ b = a ∨ b ∈ s :=
  mem_insertSorted

/-- Add the elements of a list. -/
def insertAll (s : OrderedSet α) (l : List α) : OrderedSet α := l.foldl insert s

theorem mem_insertAll {s : OrderedSet α} {l : List α} {b : α} :
    b ∈ s.insertAll l ↔ b ∈ s ∨ b ∈ l := by
  induction l generalizing s with
  | nil => simp [insertAll]
  | cons a l ih =>
    rw [insertAll, List.foldl_cons, ← insertAll, ih, mem_insert, List.mem_cons]
    tauto

/-- The elements of the first set that are not in the second. -/
def difference (s t : OrderedSet α) : OrderedSet α :=
  ⟨s.elems.filter (· ∉ t), s.sorted.filter _⟩

@[simp] theorem mem_difference {s t : OrderedSet α} {b : α} :
    b ∈ s.difference t ↔ b ∈ s ∧ b ∉ t := by
  simp [difference, mem_def]

end OrderedSet
