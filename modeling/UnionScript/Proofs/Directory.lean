import UnionScript.Directory
import UnionScript.Proofs.Lists

/-!
# Searching directories

A directory has one entry for a key, so what is found under a key is the entry that has it
(`find?_eq_some_iff`).  A key that is new goes to the end (`entries_insert_of_notMem`), and what is
found stays found as long as entries are only added there (`find?_of_entries_prefix`).
-/

namespace UnionScript

namespace Directory

variable {κ α : Type} [DecidableEq κ] {d e : Directory κ α} {k : κ} {a : α}

/-- **One entry for a key.**  What is found under a key is the entry that has it. -/
theorem find?_eq_some_iff : d.find? k = some a ↔ (k, a) ∈ d.entries := by
  have hunique : ∀ e ∈ d.entries, ∀ e' ∈ d.entries,
      decide (e.1 = k) = true → decide (e'.1 = k) = true → e = e' := by
    intro e he e' he' hk hk'
    exact List.inj_on_of_nodup_map d.nodup he he'
      ((of_decide_eq_true hk).trans (of_decide_eq_true hk').symm)
  simp only [find?, Option.map_eq_some_iff, find?_eq_some_iff_of_unique hunique, decide_eq_true_eq]
  constructor
  · rintro ⟨⟨k', a'⟩, ⟨hmem, rfl⟩, rfl⟩
    exact hmem
  · intro hmem
    exact ⟨_, ⟨hmem, rfl⟩, rfl⟩

theorem contains_iff : d.contains k = true ↔ k ∈ d.keys := by
  simp [contains, Option.isSome_iff_exists, find?_eq_some_iff, keys]

/-- A key that is new goes to the end. -/
theorem put_of_notMem {l : List (κ × α)} (h : k ∉ l.map Prod.fst) : put k a l = l ++ [(k, a)] := by
  induction l with
  | nil => rfl
  | cons entry rest ih =>
      rw [List.map_cons, List.mem_cons, not_or] at h
      rw [put, if_neg (Ne.symm h.1), ih h.2, List.cons_append]

/-- **New keys go to the end.** -/
theorem entries_insert_of_notMem (h : k ∉ d.keys) :
    (d.insert k a).entries = d.entries ++ [(k, a)] :=
  put_of_notMem h

/-- What is found stays found if entries are only added at the end. -/
theorem find?_of_entries_prefix (h : d.entries <+: e.entries) (hfind : d.find? k = some a) :
    e.find? k = some a :=
  find?_eq_some_iff.2 (h.subset (find?_eq_some_iff.1 hfind))

end Directory

end UnionScript
