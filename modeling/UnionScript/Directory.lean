/-!
# Directories

A directory holds one entry per key, in the order in which the keys were first registered.
Registering a key again replaces its entry and keeps its place.

* `find?_insert_self`, `find?_insert_of_ne` — what a registration changes;
* `keys_insert` — where a key stands afterwards.
-/

namespace UnionScript

/-- Entries under distinct keys, in order of first registration. -/
structure Directory (κ α : Type) where
  entries : List (κ × α)
  nodup : (entries.map Prod.fst).Nodup

namespace Directory

variable {κ α : Type}

/-- The directory without entries. -/
def empty : Directory κ α := ⟨[], List.nodup_nil⟩

instance : Inhabited (Directory κ α) := ⟨empty⟩

/-- The keys in order of first registration. -/
def keys (d : Directory κ α) : List κ := d.entries.map Prod.fst

/-- The registered values, in the order of their keys. -/
def values (d : Directory κ α) : List α := d.entries.map Prod.snd

/-- The number of entries. -/
def size (d : Directory κ α) : Nat := d.entries.length

/-- No key is registered. -/
def isEmpty (d : Directory κ α) : Bool := d.entries.isEmpty

variable [DecidableEq κ]

/-- Sets the value of a key: in its place if it is listed, at the end otherwise. -/
def put (k : κ) (a : α) : List (κ × α) → List (κ × α)
  | [] => [(k, a)]
  | (k', a') :: rest => if k' = k then (k, a) :: rest else (k', a') :: put k a rest

theorem map_fst_put (k : κ) (a : α) (l : List (κ × α)) :
    (put k a l).map Prod.fst =
      if k ∈ l.map Prod.fst then l.map Prod.fst else l.map Prod.fst ++ [k] := by
  induction l with
  | nil => simp [put]
  | cons e rest ih =>
    obtain ⟨k', a'⟩ := e
    by_cases h : k' = k
    · simp [put, h]
    · have h' : ¬ k = k' := fun e => h e.symm
      simp only [put, h, if_false, List.map_cons, ih, List.mem_cons, h', false_or]
      split <;> simp

theorem nodup_put (k : κ) (a : α) {l : List (κ × α)} (h : (l.map Prod.fst).Nodup) :
    ((put k a l).map Prod.fst).Nodup := by
  rw [map_fst_put]
  split
  · exact h
  · rename_i hk
    rw [List.nodup_append]
    refine ⟨h, by simp, ?_⟩
    intro x hx y hy
    have : y = k := by simpa using hy
    exact fun e => hk (this ▸ e ▸ hx)

/-- Registers a value under a key. -/
def insert (d : Directory κ α) (k : κ) (a : α) : Directory κ α :=
  ⟨put k a d.entries, nodup_put k a d.nodup⟩

/-- The value registered under a key. -/
def find? (d : Directory κ α) (k : κ) : Option α :=
  (d.entries.find? (fun e => e.1 = k)).map Prod.snd

/-- A value is registered under the key. -/
def contains (d : Directory κ α) (k : κ) : Bool :=
  (d.find? k).isSome

/-- The directory of a list of entries; of two under one key the later one holds. -/
def ofList (entries : List (κ × α)) : Directory κ α :=
  entries.foldl (fun d e => d.insert e.1 e.2) empty

@[simp]
theorem find?_empty (k : κ) : (empty : Directory κ α).find? k = none := rfl

@[simp]
theorem find?_insert_self (d : Directory κ α) (k : κ) (a : α) :
    (d.insert k a).find? k = some a := by
  obtain ⟨l, _⟩ := d
  simp only [find?, insert]
  induction l with
  | nil => simp [put]
  | cons e rest ih =>
    obtain ⟨k', a'⟩ := e
    by_cases h : k' = k
    · simp [put, h]
    · simpa [put, h] using ih (by simp_all)

theorem find?_insert_of_ne (d : Directory κ α) {k k' : κ} (a : α) (h : k ≠ k') :
    (d.insert k a).find? k' = d.find? k' := by
  obtain ⟨l, _⟩ := d
  simp only [find?, insert]
  induction l with
  | nil => simp [put, h]
  | cons e rest ih =>
    obtain ⟨j, b⟩ := e
    have hrest := ih (by simp_all)
    by_cases hj : j = k
    · subst hj
      simp [put, h]
    · by_cases hj' : j = k'
      · subst hj'
        simp [put, hj]
      · simpa [put, hj, hj'] using hrest

/-- What is found under a key is one of the values. -/
theorem mem_values_of_find? {d : Directory κ α} {k : κ} {a : α} (h : d.find? k = some a) :
    a ∈ d.values := by
  obtain ⟨e, he, rfl⟩ := Option.map_eq_some_iff.1 h
  exact List.mem_map.2 ⟨e, List.mem_of_find?_eq_some he, rfl⟩

/-- A registration adds its value and no other. -/
theorem mem_values_insert {d : Directory κ α} {k : κ} {a b : α}
    (h : b ∈ (d.insert k a).values) : b = a ∨ b ∈ d.values := by
  obtain ⟨l, _⟩ := d
  simp only [values, insert] at h ⊢
  induction l with
  | nil => simpa [put] using h
  | cons e rest ih =>
    obtain ⟨k', a'⟩ := e
    have hrest := ih (by simp_all)
    by_cases hk : k' = k
    · simp only [put, hk, if_true, List.map_cons, List.mem_cons] at h ⊢
      exact h.imp_right Or.inr
    · simp only [put, hk, if_false, List.map_cons, List.mem_cons] at h ⊢
      rcases h with h | h
      · exact Or.inr (Or.inl h)
      · exact (hrest h).imp_right Or.inr

/-- A new key goes to the end, a known one keeps its place. -/
theorem keys_insert (d : Directory κ α) (k : κ) (a : α) :
    (d.insert k a).keys = if k ∈ d.keys then d.keys else d.keys ++ [k] :=
  map_fst_put k a d.entries

end Directory

end UnionScript
