/-
  Foundation/SortedMap.lean --- ordered maps and sets as sorted association lists.

  WHAT THIS FILE IS FOR.  The ordered map and the ordered set of the C++ library,
  `std::map` and `std::set`, are used through three operations only: assign a key,
  look a key up, and walk the entries in key order.  A `SortedMap` is the list that
  such a walk visits, together with the proof that its keys increase.  The order is
  a field, so a map with a repeated or a misplaced key cannot be built, and two maps
  with the same entries are the same map.

  THE TWO FACTS MOST USED.  A map is determined by which entries it holds
  (`ext_mem`), and assigning the entries of a map, in order, to the empty map gives
  the map back (`ofList_entries`).
-/
import Mathlib.Algebra.GroupWithZero.Nat
import Mathlib.Algebra.Order.BigOperators.Group.List
import Mathlib.Algebra.Order.Group.Nat
import Mathlib.Data.List.Induction
import Mathlib.Data.List.Lex
import Mathlib.Data.List.Nodup
import Mathlib.Data.List.Perm.Subperm
import Mathlib.Tactic.Common

set_option autoImplicit false

namespace SporeClient.Foundation

/-- A sublist whose positive weights add up to as much leaves nothing out. -/
theorem eq_of_sublist_of_weight {α : Type} {l₁ l₂ : List α} {w : α → Nat} (hpos : ∀ p, 0 < w p)
    (h : l₁.Sublist l₂) (hsum : (l₂.map w).sum ≤ (l₁.map w).sum) : l₁ = l₂ := by
  induction h with
  | slnil => rfl
  | cons a hsub ih =>
      exfalso
      have hle := (hsub.map w).sum_le_sum (by simp)
      have ha := hpos a
      simp only [List.map_cons, List.sum_cons] at hsum
      omega
  | cons_cons a hsub ih =>
      simp only [List.map_cons, List.sum_cons] at hsum
      rw [ih (by omega)]

/-- A list without repetitions weighs no more than a list that has all its members. -/
theorem sum_le_of_subset {α : Type} {l₁ l₂ : List α} (hnodup : l₁.Nodup) (hsub : l₁ ⊆ l₂)
    (w : α → Nat) : (l₁.map w).sum ≤ (l₂.map w).sum := by
  obtain ⟨l, hperm, hl⟩ := List.subperm_of_subset hnodup hsub
  rw [← (hperm.map w).sum_eq]
  exact (hl.map w).sum_le_sum (by simp)

/-- **A list that weighs as much has all members.** -/
theorem mem_of_subset_of_weight {α : Type} {l₁ l₂ : List α} (hnodup : l₁.Nodup) (hsub : l₁ ⊆ l₂)
    {w : α → Nat} (hpos : ∀ p, 0 < w p) (hsum : (l₂.map w).sum ≤ (l₁.map w).sum) {q : α}
    (hq : q ∈ l₂) : q ∈ l₁ := by
  obtain ⟨l, hperm, hl⟩ := List.subperm_of_subset hnodup hsub
  rw [← (hperm.map w).sum_eq] at hsum
  rw [← eq_of_sublist_of_weight hpos hl hsum] at hq
  exact hperm.mem_iff.mp hq

/-- An ordered map: its entries in strictly increasing key order. -/
structure SortedMap (κ ν : Type) [LinearOrder κ] where
  /-- The entries, in the order an iteration visits them. -/
  entries : List (κ × ν)
  /-- The keys strictly increase. -/
  sorted : entries.Pairwise fun a b => a.1 < b.1

namespace SortedMap

variable {κ ν : Type} [LinearOrder κ]

theorem ext_entries {m₁ m₂ : SortedMap κ ν} (h : m₁.entries = m₂.entries) : m₁ = m₂ := by
  cases m₁
  cases m₂
  simpa using h

instance [DecidableEq ν] : DecidableEq (SortedMap κ ν) := fun m₁ m₂ =>
  decidable_of_iff (m₁.entries = m₂.entries) ⟨ext_entries, fun h => h ▸ rfl⟩

/-- The map without entries. -/
def empty : SortedMap κ ν := ⟨[], List.Pairwise.nil⟩

instance : EmptyCollection (SortedMap κ ν) := ⟨empty⟩

instance : Inhabited (SortedMap κ ν) := ⟨empty⟩

@[simp] theorem entries_empty : (∅ : SortedMap κ ν).entries = [] := rfl

/-- Assign `v` to `k` in a list that is sorted by key, replacing the entry of `k`
when there is one. -/
def insertEntry (k : κ) (v : ν) : List (κ × ν) → List (κ × ν)
  | [] => [(k, v)]
  | p :: rest =>
      if k < p.1 then (k, v) :: p :: rest
      else if k = p.1 then (k, v) :: rest
      else p :: insertEntry k v rest

theorem mem_insertEntry {k : κ} {v : ν} {l : List (κ × ν)}
    (h : l.Pairwise fun a b => a.1 < b.1) (q : κ × ν) :
    q ∈ insertEntry k v l ↔ q = (k, v) ∨ (q ∈ l ∧ q.1 ≠ k) := by
  induction l with
  | nil => simp [insertEntry]
  | cons p rest ih =>
      have hrest : ∀ a ∈ rest, p.1 < a.1 := fun a ha => List.rel_of_pairwise_cons h ha
      simp only [insertEntry]
      split
      · rename_i hlt
        -- every key of the list is above `k`
        have hne : ∀ a ∈ p :: rest, a.1 ≠ k := by
          intro a ha
          rcases List.mem_cons.mp ha with rfl | ha
          · exact hlt.ne'
          · exact (hlt.trans (hrest a ha)).ne'
        constructor
        · intro hq
          rcases List.mem_cons.mp hq with rfl | hq
          · exact Or.inl rfl
          · exact Or.inr ⟨hq, hne q hq⟩
        · rintro (rfl | ⟨hq, _⟩)
          · exact List.mem_cons_self
          · exact List.mem_cons_of_mem _ hq
      · split
        · rename_i _ heq
          subst heq
          have hne : ∀ a ∈ rest, a.1 ≠ p.1 := fun a ha => (hrest a ha).ne'
          constructor
          · intro hq
            rcases List.mem_cons.mp hq with rfl | hq
            · exact Or.inl rfl
            · exact Or.inr ⟨List.mem_cons_of_mem _ hq, hne q hq⟩
          · rintro (rfl | ⟨hq, hqk⟩)
            · exact List.mem_cons_self
            · rcases List.mem_cons.mp hq with rfl | hq
              · exact absurd rfl hqk
              · exact List.mem_cons_of_mem _ hq
        · rename_i _ hne
          rw [List.mem_cons, ih h.of_cons, List.mem_cons]
          constructor
          · rintro (rfl | rfl | ⟨hq, hqk⟩)
            · exact Or.inr ⟨Or.inl rfl, Ne.symm hne⟩
            · exact Or.inl rfl
            · exact Or.inr ⟨Or.inr hq, hqk⟩
          · rintro (rfl | ⟨rfl | hq, hqk⟩)
            · exact Or.inr (Or.inl rfl)
            · exact Or.inl rfl
            · exact Or.inr (Or.inr ⟨hq, hqk⟩)

theorem insertEntry_sorted (k : κ) (v : ν) {l : List (κ × ν)}
    (h : l.Pairwise fun a b => a.1 < b.1) :
    (insertEntry k v l).Pairwise fun a b => a.1 < b.1 := by
  induction l with
  | nil => simp [insertEntry]
  | cons p rest ih =>
      have hrest : ∀ a ∈ rest, p.1 < a.1 := fun a ha => List.rel_of_pairwise_cons h ha
      simp only [insertEntry]
      split
      · rename_i hlt
        refine h.cons fun a ha => ?_
        rcases List.mem_cons.mp ha with rfl | ha
        · exact hlt
        · exact hlt.trans (hrest a ha)
      · split
        · rename_i _ heq
          subst heq
          exact h.of_cons.cons hrest
        · rename_i hlt hne
          refine (ih h.of_cons).cons fun a ha => ?_
          rcases (mem_insertEntry h.of_cons a).mp ha with rfl | ⟨ha, _⟩
          · exact lt_of_le_of_ne (not_lt.mp hlt) (Ne.symm hne)
          · exact hrest a ha

/-- A key above all keys of the list is put at its end. -/
theorem insertEntry_above {l : List (κ × ν)} (p : κ × ν) (h : ∀ a ∈ l, a.1 < p.1) :
    insertEntry p.1 p.2 l = l ++ [p] := by
  induction l with
  | nil => rfl
  | cons a rest ih =>
      have ha : a.1 < p.1 := h a List.mem_cons_self
      simp only [insertEntry, if_neg (not_lt.mpr ha.le), if_neg ha.ne', List.cons_append,
        ih fun b hb => h b (List.mem_cons_of_mem _ hb)]

/-- A key that is there keeps its place. -/
theorem insertEntry_same {front back : List (κ × ν)} {k : κ} (v w : ν)
    (h : ∀ a ∈ front, a.1 < k) :
    insertEntry k w (front ++ (k, v) :: back) = front ++ (k, w) :: back := by
  induction front with
  | nil => simp [insertEntry]
  | cons a rest ih =>
      have ha : a.1 < k := h a List.mem_cons_self
      simp only [List.cons_append, insertEntry, if_neg (not_lt.mpr ha.le), if_neg ha.ne',
        ih fun b hb => h b (List.mem_cons_of_mem _ hb)]

/-- `m[k] = v`: assign `v` to `k`. -/
def insert (m : SortedMap κ ν) (k : κ) (v : ν) : SortedMap κ ν :=
  ⟨insertEntry k v m.entries, insertEntry_sorted k v m.sorted⟩

/-- `delete(m, k)`: take out the entry of `k`. -/
def erase (m : SortedMap κ ν) (k : κ) : SortedMap κ ν :=
  ⟨m.entries.filter fun p => p.1 ≠ k, m.sorted.filter _⟩

/-- The value of `k`, when there is one. -/
def find? (m : SortedMap κ ν) (k : κ) : Option ν :=
  (m.entries.find? fun p => p.1 = k).map Prod.snd

/-- The keys, in increasing order. -/
def keys (m : SortedMap κ ν) : List κ := m.entries.map Prod.fst

/-- Assign the pairs of a list one after another to the empty map. -/
def ofList (l : List (κ × ν)) : SortedMap κ ν :=
  l.foldl (fun m p => m.insert p.1 p.2) ∅

@[simp] theorem mem_insert {m : SortedMap κ ν} {k : κ} {v : ν} {q : κ × ν} :
    q ∈ (m.insert k v).entries ↔ q = (k, v) ∨ (q ∈ m.entries ∧ q.1 ≠ k) :=
  mem_insertEntry m.sorted q

@[simp] theorem mem_erase {m : SortedMap κ ν} {k : κ} {q : κ × ν} :
    q ∈ (m.erase k).entries ↔ q ∈ m.entries ∧ q.1 ≠ k := by
  simp [erase]

theorem nodup (m : SortedMap κ ν) : m.entries.Nodup :=
  m.sorted.imp fun h heq => absurd (congrArg Prod.fst heq) h.ne

theorem keys_nodup (m : SortedMap κ ν) : m.keys.Nodup :=
  List.Pairwise.map _ (fun _ _ h => h.ne) m.sorted

/-- A key has one value. -/
theorem value_unique {m : SortedMap κ ν} {k : κ} {v₁ v₂ : ν}
    (h₁ : (k, v₁) ∈ m.entries) (h₂ : (k, v₂) ∈ m.entries) : v₁ = v₂ := by
  have heq := List.inj_on_of_nodup_map m.keys_nodup h₁ h₂ rfl
  exact congrArg Prod.snd heq

/-- **A map is determined by which entries it holds.** -/
theorem ext_mem {m₁ m₂ : SortedMap κ ν} (h : ∀ p, p ∈ m₁.entries ↔ p ∈ m₂.entries) :
    m₁ = m₂ := by
  have hperm : m₁.entries.Perm m₂.entries :=
    (List.perm_ext_iff_of_nodup m₁.nodup m₂.nodup).mpr h
  exact ext_entries (hperm.eq_of_pairwise
    (fun a b _ _ hab hba => absurd (hab.trans hba) (lt_irrefl _)) m₁.sorted m₂.sorted)

theorem find?_eq_some_iff {m : SortedMap κ ν} {k : κ} {v : ν} :
    m.find? k = some v ↔ (k, v) ∈ m.entries := by
  unfold find?
  constructor
  · intro h
    obtain ⟨p, hp, rfl⟩ := Option.map_eq_some_iff.mp h
    have hk : p.1 = k := by simpa using List.find?_some hp
    exact hk ▸ List.mem_of_find?_eq_some hp
  · intro h
    cases hf : m.entries.find? fun p => p.1 = k with
    | none => simpa using List.find?_eq_none.mp hf _ h
    | some p =>
        have hk : p.1 = k := by simpa using List.find?_some hf
        have hp : (k, p.2) ∈ m.entries := hk ▸ List.mem_of_find?_eq_some hf
        rw [Option.map_some, value_unique hp h]

/-! ## Assigning a list of pairs -/

theorem foldl_insert_mem {l : List (κ × ν)} {m : SortedMap κ ν} {q : κ × ν}
    (h : q ∈ (l.foldl (fun m p => m.insert p.1 p.2) m).entries) : q ∈ m.entries ∨ q ∈ l := by
  induction l generalizing m with
  | nil => exact Or.inl h
  | cons p rest ih =>
      rcases ih h with h | h
      · rcases mem_insert.mp h with rfl | ⟨h, _⟩
        · exact Or.inr List.mem_cons_self
        · exact Or.inl h
      · exact Or.inr (List.mem_cons_of_mem _ h)

/-- Nothing is in the map that was not assigned. -/
theorem mem_of_mem_ofList {l : List (κ × ν)} {q : κ × ν} (h : q ∈ (ofList l).entries) : q ∈ l :=
  (foldl_insert_mem h).resolve_left (by simp)

theorem foldl_insert_key {l : List (κ × ν)} {m : SortedMap κ ν} {k : κ}
    (h : k ∈ m.keys ∨ k ∈ l.map Prod.fst) :
    k ∈ (l.foldl (fun m p => m.insert p.1 p.2) m).keys := by
  induction l generalizing m with
  | nil => simpa using h
  | cons p rest ih =>
      apply ih
      by_cases hk : k = p.1
      · exact Or.inl (List.mem_map.mpr ⟨(p.1, p.2), mem_insert.mpr (Or.inl rfl), hk.symm⟩)
      · rcases h with h | h
        · obtain ⟨q, hq, rfl⟩ := List.mem_map.mp h
          exact Or.inl (List.mem_map.mpr ⟨q, mem_insert.mpr (Or.inr ⟨hq, hk⟩), rfl⟩)
        · rw [List.map_cons, List.mem_cons] at h
          exact Or.inr (h.resolve_left hk)

/-- Every assigned key is in the map. -/
theorem mem_keys_ofList {l : List (κ × ν)} {k : κ} (h : k ∈ l.map Prod.fst) :
    k ∈ (ofList l).keys :=
  foldl_insert_key (Or.inr h)

theorem mem_keys_ofList_iff {l : List (κ × ν)} {k : κ} :
    k ∈ (ofList l).keys ↔ k ∈ l.map Prod.fst := by
  refine ⟨fun h => ?_, mem_keys_ofList⟩
  obtain ⟨q, hq, rfl⟩ := List.mem_map.mp h
  exact List.mem_map_of_mem (mem_of_mem_ofList hq)

/-- What is assigned to a key matters to no other key. -/
theorem erase_ofList (l : List (κ × ν)) (k : κ) :
    (ofList l).erase k = ofList (l.filter fun p => p.1 ≠ k) := by
  have hfold : ∀ m : SortedMap κ ν, (l.foldl (fun m p => m.insert p.1 p.2) m).erase k =
      (l.filter fun p => p.1 ≠ k).foldl (fun m p => m.insert p.1 p.2) (m.erase k) := by
    induction l with
    | nil => exact fun _ => rfl
    | cons p rest ih =>
        intro m
        rw [List.foldl_cons, ih]
        by_cases hp : p.1 = k
        · have hsame : (m.insert p.1 p.2).erase k = m.erase k := by
            apply ext_mem
            intro q
            rw [mem_erase, mem_insert, mem_erase, hp]
            constructor
            · rintro ⟨rfl | ⟨hq, _⟩, hne⟩
              · exact absurd rfl hne
              · exact ⟨hq, hne⟩
            · exact fun hq => ⟨Or.inr hq, hq.2⟩
          rw [hsame, List.filter_cons_of_neg (by simpa using hp)]
        · have hswap : (m.insert p.1 p.2).erase k = (m.erase k).insert p.1 p.2 := by
            apply ext_mem
            intro q
            rw [mem_erase, mem_insert, mem_insert, mem_erase]
            constructor
            · rintro ⟨rfl | ⟨hq, hqp⟩, hne⟩
              · exact Or.inl rfl
              · exact Or.inr ⟨⟨hq, hne⟩, hqp⟩
            · rintro (rfl | ⟨⟨hq, hne⟩, hqp⟩)
              · exact ⟨Or.inl rfl, hp⟩
              · exact ⟨Or.inr ⟨hq, hqp⟩, hne⟩
          rw [hswap, List.filter_cons_of_pos (by simpa using hp), List.foldl_cons]
  exact hfold ∅

theorem find?_erase {m : SortedMap κ ν} {k x : κ} (h : x ≠ k) :
    (m.erase k).find? x = m.find? x := by
  apply Option.ext
  intro v
  rw [find?_eq_some_iff, find?_eq_some_iff, mem_erase]
  exact and_iff_left h

/-- Pairs with one key do not matter to another one. -/
theorem find?_ofList_middle {front own back : List (κ × ν)} {k x : κ} (h : ∀ p ∈ own, p.1 = k)
    (hx : x ≠ k) : (ofList (front ++ own ++ back)).find? x = (ofList (front ++ back)).find? x := by
  have hown : own.filter (fun p => p.1 ≠ k) = [] :=
    List.filter_eq_nil_iff.mpr fun p hp => by simpa using h p hp
  rw [← find?_erase hx, ← find?_erase (m := ofList (front ++ back)) hx, erase_ofList, erase_ofList,
    List.filter_append, List.filter_append, List.filter_append, hown, List.append_nil]

theorem find?_insert {m : SortedMap κ ν} {k x : κ} {v : ν} :
    (m.insert k v).find? x = if x = k then some v else m.find? x := by
  apply Option.ext
  intro w
  rw [find?_eq_some_iff, mem_insert]
  split
  · rename_i hx
    subst hx
    simp [eq_comm]
  · rename_i hx
    rw [find?_eq_some_iff]
    simp [hx]

/-- The value that is given last for a key. -/
def lastValue (k : κ) (l : List (κ × ν)) : Option ν :=
  (l.reverse.find? fun p => p.1 = k).map Prod.snd

theorem lastValue_concat (k : κ) (l : List (κ × ν)) (p : κ × ν) :
    lastValue k (l ++ [p]) = if k = p.1 then some p.2 else lastValue k l := by
  rw [lastValue, List.reverse_append, List.reverse_singleton, List.singleton_append,
    List.find?_cons]
  by_cases hk : k = p.1
  · simp [hk]
  · simp [hk, Ne.symm hk, lastValue]

theorem mem_of_lastValue {k : κ} {l : List (κ × ν)} {v : ν} (h : lastValue k l = some v) :
    (k, v) ∈ l := by
  obtain ⟨p, hp, rfl⟩ := Option.map_eq_some_iff.mp h
  obtain rfl : p.1 = k := by simpa using List.find?_some hp
  exact List.mem_reverse.mp (List.mem_of_find?_eq_some hp)

theorem lastValue_isSome_iff {k : κ} {l : List (κ × ν)} :
    (lastValue k l).isSome = true ↔ k ∈ l.map Prod.fst := by
  simp [lastValue, List.find?_isSome]

/-- **The last assignment counts.** -/
theorem find?_ofList (k : κ) (l : List (κ × ν)) : (ofList l).find? k = lastValue k l := by
  induction l using List.reverseRecOn with
  | nil => rfl
  | append_singleton l p ih =>
      have hlast : ofList (l ++ [p]) = (ofList l).insert p.1 p.2 := by simp [ofList]
      rw [hlast, find?_insert, lastValue_concat, ih]

/-- Pairs in increasing key order, all above the keys already there, are appended. -/
theorem foldl_insert_entries {l : List (κ × ν)} {m : SortedMap κ ν}
    (h : (m.entries ++ l).Pairwise fun a b => a.1 < b.1) :
    (l.foldl (fun m p => m.insert p.1 p.2) m).entries = m.entries ++ l := by
  induction l generalizing m with
  | nil => simp
  | cons p rest ih =>
      have hlast : (m.insert p.1 p.2).entries = m.entries ++ [p] := by
        have habove : ∀ a ∈ m.entries, a.1 < p.1 := fun a ha =>
          (List.pairwise_append.mp h).2.2 a ha p List.mem_cons_self
        exact insertEntry_above p habove
      have hsorted : ((m.insert p.1 p.2).entries ++ rest).Pairwise fun a b => a.1 < b.1 := by
        rw [hlast]
        simpa using h
      rw [List.foldl_cons, ih hsorted, hlast]
      simp

/-- **Assigning the entries of a map in order gives the map back.** -/
@[simp] theorem ofList_entries (m : SortedMap κ ν) : ofList m.entries = m :=
  ext_entries (foldl_insert_entries (by simpa using m.sorted))

end SortedMap

/-! ## Ordered sets -/

/-- An ordered set: a map without values. -/
abbrev SortedSet (κ : Type) [LinearOrder κ] : Type := SortedMap κ Unit

namespace SortedSet

variable {κ : Type} [LinearOrder κ]

/-- `s.insert(k)`. -/
def add (s : SortedSet κ) (k : κ) : SortedSet κ := SortedMap.insert s k ()

/-- The elements, in increasing order. -/
def toList (s : SortedSet κ) : List κ := SortedMap.keys s

instance : Membership κ (SortedSet κ) := ⟨fun s k => k ∈ s.toList⟩

instance (k : κ) (s : SortedSet κ) : Decidable (k ∈ s) :=
  inferInstanceAs (Decidable (k ∈ s.toList))

/-- Insert the elements of a list one after another into the empty set. -/
def ofList (l : List κ) : SortedSet κ := l.foldl add ∅

theorem mem_def {s : SortedSet κ} {k : κ} : k ∈ s ↔ (k, ()) ∈ SortedMap.entries s := by
  constructor
  · intro h
    obtain ⟨p, hp, rfl⟩ := List.mem_map.mp h
    exact hp
  · exact fun h => List.mem_map.mpr ⟨(k, ()), h, rfl⟩

@[simp] theorem mem_toList {s : SortedSet κ} {k : κ} : k ∈ s.toList ↔ k ∈ s := Iff.rfl

@[simp] theorem not_mem_empty (k : κ) : k ∉ (∅ : SortedSet κ) := by simp [mem_def]

@[simp] theorem mem_add {s : SortedSet κ} {k a : κ} : a ∈ s.add k ↔ a = k ∨ a ∈ s := by
  simp only [mem_def, add, SortedMap.mem_insert, Prod.mk.injEq, and_true]
  by_cases h : a = k <;> simp [h]

/-- **A set is determined by its elements.** -/
theorem ext {s₁ s₂ : SortedSet κ} (h : ∀ a, a ∈ s₁ ↔ a ∈ s₂) : s₁ = s₂ :=
  SortedMap.ext_mem fun p => by simpa [mem_def] using h p.1

theorem mem_foldl_add {l : List κ} {s : SortedSet κ} {a : κ} :
    a ∈ l.foldl add s ↔ a ∈ s ∨ a ∈ l := by
  induction l generalizing s with
  | nil => simp
  | cons x rest ih => rw [List.foldl_cons, ih, mem_add, List.mem_cons]; tauto

@[simp] theorem mem_ofList {l : List κ} {a : κ} : a ∈ ofList l ↔ a ∈ l := by
  simp [ofList, mem_foldl_add]

@[simp] theorem ofList_toList (s : SortedSet κ) : ofList s.toList = s :=
  ext fun a => by simp

theorem nodup_toList (s : SortedSet κ) : s.toList.Nodup := SortedMap.keys_nodup s

theorem sorted_toList (s : SortedSet κ) : s.toList.Pairwise (· < ·) :=
  List.Pairwise.map _ (fun _ _ h => h) s.sorted

/-- Sets that agree where a property holds list the same elements with the property. -/
theorem filter_toList_congr {s₁ s₂ : SortedSet κ} {P : κ → Bool}
    (h : ∀ a, P a = true → (a ∈ s₁ ↔ a ∈ s₂)) : s₁.toList.filter P = s₂.toList.filter P := by
  have hperm : (s₁.toList.filter P).Perm (s₂.toList.filter P) := by
    rw [List.perm_ext_iff_of_nodup (s₁.nodup_toList.filter P) (s₂.nodup_toList.filter P)]
    intro a
    rw [List.mem_filter, List.mem_filter, mem_toList, mem_toList]
    exact and_congr_left (h a)
  exact hperm.eq_of_pairwise (fun a b _ _ hab hba => absurd (hab.trans hba) (lt_irrefl _))
    (s₁.sorted_toList.filter P) (s₂.sorted_toList.filter P)

end SortedSet

end SporeClient.Foundation
