import Mathlib.Data.List.Forall2
import Mathlib.Data.List.Nodup
import Mathlib.Data.List.Pairwise

/-!
# Facts about lists

What several modules use of lists in general:

* searching and filtering a list in which at most one member passes a test
  (`find?_eq_some_iff_of_unique`, `filter_eq_singleton_of_nodup`, `eq_of_nodup_filterMap`);
* lists that are related member by member (`exists_forall₂`, `exists_getElem?_of_forall₂`,
  `mapM_eq_ok_iff`);
* places in a list that is put together of parts (`exists_split_of_flatMap`,
  `mem_or_eq_or_mem`, `filter_flatMap_sublist`);
* which of two members comes first, which is said by the sublist of the two
  (`pair_sublist_append`, `sublist_total`, `sublist_of_append_singleton`, `not_sublist_swap`).
-/

namespace UnionScript

variable {α β : Type}

/-- If at most one member of a list passes a test, a search finds the one that does. -/
theorem find?_eq_some_iff_of_unique {p : α → Bool} {l : List α} {a : α}
    (hunique : ∀ b ∈ l, ∀ b' ∈ l, p b = true → p b' = true → b = b') :
    l.find? p = some a ↔ a ∈ l ∧ p a = true := by
  constructor
  · intro h
    exact ⟨List.mem_of_find?_eq_some h, List.find?_some h⟩
  · rintro ⟨ha, hpa⟩
    obtain ⟨b, hb⟩ := Option.isSome_iff_exists.1 (List.find?_isSome.2 ⟨a, ha, hpa⟩)
    rw [hb, hunique b (List.mem_of_find?_eq_some hb) a ha (List.find?_some hb) hpa]

/-- Just one member of a list has its image, if no image occurs twice. -/
theorem filter_eq_singleton_of_nodup {f : α → β} {p : α → Bool} {l : List α}
    (h : (l.map f).Nodup) {a : α} (ha : a ∈ l) (hp : ∀ b ∈ l, p b = true ↔ f b = f a) :
    l.filter p = [a] := by
  induction l with
  | nil => cases ha
  | cons b rest ih =>
      rw [List.map_cons, List.nodup_cons] at h
      rw [List.forall_mem_cons] at hp
      rcases List.mem_cons.1 ha with rfl | ha
      · have hrest : rest.filter p = [] := by
          refine List.filter_eq_nil_iff.2 fun c hc hpc => h.1 ?_
          exact List.mem_map.2 ⟨c, hc, (hp.2 c hc).1 hpc⟩
        rw [List.filter_cons_of_pos (hp.1.2 rfl), hrest]
      · have hne : f b ≠ f a := fun heq => h.1 (List.mem_map.2 ⟨a, ha, heq.symm⟩)
        rw [List.filter_cons_of_neg fun hpb => hne (hp.1.1 hpb)]
        exact ih h.2 ha hp.2

/-- Two members of a list with the same image are the same if no image occurs
twice. -/
theorem eq_of_nodup_filterMap {f : α → Option β} {l : List α}
    (h : (l.filterMap f).Nodup) {a b : α} {c : β} (ha : a ∈ l) (hb : b ∈ l)
    (hac : f a = some c) (hbc : f b = some c) : a = b := by
  by_contra hne
  have hsymm : Std.Symm fun a a' : α =>
      ∀ b, f a = some b → ∀ b', f a' = some b' → b ≠ b' :=
    ⟨fun _ _ h b hb b' hb' => (h b' hb' b hb).symm⟩
  exact (List.pairwise_filterMap.1 h).forall ha hb hne c hac c hbc rfl

/-- Where each member of a list is related to something, so is the list. -/
theorem exists_forall₂ {R : α → β → Prop} {l : List α} (h : ∀ a ∈ l, ∃ b, R a b) :
    ∃ m, List.Forall₂ R l m := by
  induction l with
  | nil => exact ⟨[], .nil⟩
  | cons a rest ih =>
      obtain ⟨b, hb⟩ := h a List.mem_cons_self
      obtain ⟨m, hm⟩ := ih fun c hc => h c (List.mem_cons_of_mem a hc)
      exact ⟨b :: m, .cons hb hm⟩

/-- In one place of related lists there are related members. -/
theorem exists_getElem?_of_forall₂ {R : α → β → Prop} {l : List α} {m : List β}
    (h : List.Forall₂ R l m) {i : Nat} {a : α} (ha : l[i]? = some a) :
    ∃ b, m[i]? = some b ∧ R a b := by
  obtain ⟨hl, rfl⟩ := List.getElem?_eq_some_iff.1 ha
  have hm : i < m.length := h.length_eq ▸ hl
  exact ⟨_, List.getElem?_eq_getElem hm, h.get hl hm⟩

/-- A list is worked through if each of its members is. -/
theorem mapM_eq_ok_iff {ε : Type} {f : α → Except ε β} {l : List α} {results : List β} :
    l.mapM f = .ok results ↔ List.Forall₂ (fun a b => f a = .ok b) l results := by
  induction l generalizing results with
  | nil =>
      rw [List.forall₂_nil_left_iff, List.mapM_nil]
      exact ⟨fun h => (Except.ok.inj h).symm, fun h => congrArg Except.ok h.symm⟩
  | cons a rest ih =>
      rw [List.mapM_cons, List.forall₂_cons_left_iff]
      cases hfirst : f a with
      | error fault => simp [bind, Except.bind]
      | ok b =>
          cases hrest : rest.mapM f with
          | error fault => simp [bind, Except.bind, ← ih, hrest]
          | ok others =>
              simp only [bind, Except.bind, pure, Except.pure, ← ih, hrest, Except.ok.injEq]
              constructor
              · rintro rfl
                exact ⟨b, others, rfl, rfl, rfl⟩
              · rintro ⟨_, _, rfl, rfl, hresults⟩
                exact hresults.symm

/-- What is left of the parts of a list is found in the parts of the whole list. -/
theorem filter_flatMap_sublist {f g : α → List β} (p : α → Bool)
    (h : ∀ a, (f a).Sublist (g a)) (l : List α) :
    ((l.filter p).flatMap f).Sublist (l.flatMap g) := by
  induction l with
  | nil => exact List.Sublist.refl _
  | cons a rest ih =>
      by_cases ha : p a
      · rw [List.filter_cons_of_pos ha, List.flatMap_cons, List.flatMap_cons]
        exact (h a).append ih
      · rw [List.filter_cons_of_neg ha, List.flatMap_cons]
        exact ih.trans (List.sublist_append_right _ _)

/-- A place in a list that is put together of parts is a place in one of the parts. -/
theorem exists_split_of_flatMap {f : α → List β} {items : List α} {first rest : List β} {b : β}
    (h : items.flatMap f = first ++ b :: rest) :
    ∃ before a after own rest', items = before ++ a :: after ∧
      first = before.flatMap f ++ own ∧ f a = own ++ b :: rest' := by
  induction items generalizing first with
  | nil => simp at h
  | cons a items ih =>
      rw [List.flatMap_cons] at h
      rcases List.append_eq_append_iff.1 h with ⟨own, rfl, hrest⟩ | ⟨tail, hfirst, htail⟩
      · obtain ⟨before, a', after, own', rest', rfl, rfl, ha'⟩ := ih hrest
        exact ⟨a :: before, a', after, own', rest', rfl, by simp, ha'⟩
      · cases tail with
        | nil =>
            obtain ⟨before, a', after, own', rest', rfl, hown, ha'⟩ := @ih [] htail.symm
            refine ⟨a :: before, a', after, own', rest', rfl, ?_, ha'⟩
            rw [List.flatMap_cons, List.append_assoc, ← hown, hfirst, List.append_nil,
              List.append_nil]
        | cons b' rest' =>
            obtain ⟨rfl, -⟩ := List.cons.inj htail
            exact ⟨[], a, items, first, rest', rfl, by simp, hfirst⟩

/-- Of two places in a list, one is before the other or they are the same. -/
theorem mem_or_eq_or_mem {first second before after : List α} {a b : α}
    (h : before ++ a :: after = first ++ b :: second) : a ∈ first ∨ a = b ∨ b ∈ before := by
  rcases List.append_eq_append_iff.1 h with ⟨middle, rfl, hmiddle⟩ | ⟨middle, rfl, hmiddle⟩ <;>
    cases middle <;> simp_all

section

variable {l first second : List α} {a b : α}

/-- A member of the first part of a list comes before a member of the second part. -/
theorem pair_sublist_append (ha : a ∈ first) (hb : b ∈ second) :
    [a, b].Sublist (first ++ second) :=
  (List.singleton_sublist.2 ha).append (List.singleton_sublist.2 hb)

/-- Of two members of a list, one comes before the other. -/
theorem sublist_total (ha : a ∈ l) (hb : b ∈ l) :
    a = b ∨ [a, b].Sublist l ∨ [b, a].Sublist l := by
  obtain ⟨before, after, rfl⟩ := List.append_of_mem ha
  rcases List.mem_append.1 hb with hbefore | hafter
  · exact Or.inr (Or.inr (pair_sublist_append hbefore List.mem_cons_self))
  · rcases List.mem_cons.1 hafter with rfl | hafter
    · exact Or.inl rfl
    · rw [List.append_cons]
      exact Or.inr (Or.inl (pair_sublist_append (by simp) hafter))

/-- What precedes a member that occurs once stands in front of it. -/
theorem sublist_of_append_singleton (part : List α) (hnodup : (first ++ a :: second).Nodup)
    (h : (part ++ [a]).Sublist (first ++ a :: second)) : part.Sublist first := by
  obtain ⟨front, back, hsplit, hfront, hback⟩ := List.append_sublist_iff.1 h
  have ha : a ∈ back := List.singleton_sublist.1 hback
  rcases List.append_eq_append_iff.1 hsplit with ⟨extra, rfl, htail⟩ | ⟨extra, rfl, -⟩
  · cases extra with
    | nil => simpa using hfront
    | cons c extra =>
        obtain ⟨rfl, -⟩ := List.cons.inj htail
        rw [hsplit] at hnodup
        exact ((List.nodup_append.1 hnodup).2.2 a (by simp) a ha rfl).elim
  · exact hfront.trans (List.sublist_append_left _ _)

/-- Members that occur once stand in one order only. -/
theorem not_sublist_swap (hnodup : l.Nodup) (h : [a, b].Sublist l) : ¬ [b, a].Sublist l := by
  intro hswap
  obtain ⟨first, second, rfl⟩ := List.append_of_mem (h.subset (by simp : b ∈ [a, b]))
  have ha : a ∈ first :=
    List.singleton_sublist.1 (sublist_of_append_singleton [a] hnodup h)
  obtain ⟨front, back, rfl⟩ := List.append_of_mem ha
  rw [List.append_assoc, List.cons_append] at hnodup hswap
  have hb : b ∈ front :=
    List.singleton_sublist.1 (sublist_of_append_singleton [b] hnodup hswap)
  exact (List.nodup_append.1 hnodup).2.2 b hb b (by simp) rfl

end

end UnionScript
