import UnionScript.Layout.RowSource
import UnionScript.Proofs.Lists

/-!
# The columns of a layout

A property has one column for each purpose that its type asks for, and the
purposes of a type stand in storage order, so no purpose occurs twice.  The
columns of a row are numbered from zero without gaps.

* `UnionType.purposes_sublist` — purposes stand in storage order;
* `PropertyLayout.Laid` — a property has the columns of its type, each with the
  database type of its purpose;
* `Layout.Laid`, `Layout.laid_ofNode` — every layout of a schema object or of the
  rows of a node comes from laying out a list of properties;
* `Layout.Laid.ordinals` — how columns are numbered.
-/

namespace UnionScript

namespace UnionType

variable {t : UnionType}

/-- **Storage order.**  The purposes of a type stand in the order of all
purposes. -/
theorem purposes_sublist (t : UnionType) : t.purposes.Sublist Purpose.all := by
  have hkinds : (t.valueKinds.flatMap (kindPurposes t.isUnion)).Sublist
      (Kind.values.flatMap (kindPurposes true)) := by
    refine filter_flatMap_sublist t.has (fun k => ?_) Kind.values
    cases t.isUnion with
    | true => exact List.Sublist.refl _
    | false => cases k <;> decide
  have hall : Purpose.all = [Purpose.tag] ++ Kind.values.flatMap (kindPurposes true) := by decide
  rw [hall, purposes]
  refine List.Sublist.append ?_ hkinds
  split
  · exact List.Sublist.refl _
  · exact List.nil_sublist _

theorem purposes_nodup (t : UnionType) : t.purposes.Nodup :=
  List.Nodup.sublist t.purposes_sublist (by decide)

/-- The value kinds of a type are those it admits, without the discriminator. -/
theorem mem_valueKinds_iff {k : Kind} (hk : k ≠ .tag) : k ∈ t.valueKinds ↔ t.has k = true := by
  have hvalue : k ∈ Kind.values := by
    cases k with
    | tag => exact absurd rfl hk
    | _ => decide
  simp [valueKinds, hvalue]

theorem tag_notMem_valueKinds (t : UnionType) : Kind.tag ∉ t.valueKinds := by
  intro h
  exact absurd (List.mem_filter.1 h).1 (by decide)

/-- A type asks for the purposes of its kinds beside its discriminator. -/
theorem mem_purposes_iff {purpose : Purpose} :
    purpose ∈ t.purposes ↔
      (purpose = .tag ∧ t.needsDiscriminator = true) ∨
        ∃ k ∈ t.valueKinds, purpose ∈ kindPurposes t.isUnion k := by
  rw [purposes, List.mem_append, List.mem_flatMap]
  refine or_congr_left ?_
  cases t.needsDiscriminator <;> simp

end UnionType

namespace PropertyLayout

/-- A property has the columns that its type asks for, each with the database
type of its purpose. -/
structure Laid (p : PropertyLayout) : Prop where
  purposes : p.columns.map Column.purpose =
    if p.type.isUndefined then [.tag] else p.type.purposes
  databaseType : ∀ c ∈ p.columns, c.databaseType = c.purpose.databaseType

variable {p : PropertyLayout}

/-- No two columns of a property have the same purpose. -/
theorem Laid.nodup (h : p.Laid) : (p.columns.map Column.purpose).Nodup := by
  rw [h.purposes]
  split
  · exact List.nodup_singleton _
  · exact p.type.purposes_nodup

/-- A property of defined type has a column for each purpose of its type. -/
theorem Laid.exists_column_iff (h : p.Laid) (hdefined : p.type.isUndefined = false)
    {purpose : Purpose} :
    (∃ c ∈ p.columns, c.purpose = purpose) ↔ purpose ∈ p.type.purposes := by
  have hpurposes := h.purposes
  rw [hdefined, if_neg Bool.false_ne_true] at hpurposes
  rw [← hpurposes, List.mem_map]

/-- The column for a purpose is one of the columns and has that purpose. -/
theorem mem_of_column? {purpose : Purpose} {c : Column} (h : p.column? purpose = some c) :
    c ∈ p.columns ∧ c.purpose = purpose :=
  ⟨List.mem_of_find?_eq_some h, by simpa using List.find?_some h⟩

/-- A property lacks a column only if no column has the purpose. -/
theorem column?_eq_none_iff {purpose : Purpose} :
    p.column? purpose = none ↔ ∀ c ∈ p.columns, c.purpose ≠ purpose := by
  simp [column?, List.find?_eq_none]

end PropertyLayout

namespace Field

variable (f : Field) (start : Nat)

theorem map_purpose_layout : (f.layout start).columns.map Column.purpose = f.purposes := by
  have hcomp : (Column.purpose ∘ fun p : Purpose × Nat => f.column p.1 p.2) = Prod.fst := rfl
  rw [layout, List.map_map, hcomp, List.zipIdx_map_fst]

/-- The columns of one property are numbered in a row. -/
theorem map_ordinal_layout :
    (f.layout start).columns.map Column.ordinal = List.range' start f.purposes.length := by
  have hcomp : (Column.ordinal ∘ fun p : Purpose × Nat => f.column p.1 p.2) = Prod.snd := rfl
  rw [layout, List.map_map, hcomp, List.zipIdx_map_snd]

/-- What is laid out is laid out rightly, whatever the first number is. -/
theorem laid_layout : (f.layout start).Laid where
  purposes := f.map_purpose_layout start
  databaseType c hc := by
    obtain ⟨p, -, rfl⟩ := List.mem_map.1 hc
    rfl

end Field

namespace Layout

variable {l : Layout}

/-- The layout comes from laying out a list of properties. -/
def Laid (l : Layout) : Prop :=
  ∃ fields, l = ofFields fields

theorem laid_ofDefinition (d : Definition) : (ofDefinition d).Laid :=
  ⟨_, rfl⟩

theorem laid_ofProjection (tree : Tree) (bindings : Bindings) (columns : List NodeId) :
    (ofProjection tree bindings columns).Laid :=
  ⟨_, rfl⟩

/-- The layout of the rows of a node comes from laying out properties, however
many links away they are. -/
theorem laid_ofNode {tree : Tree} {bindings : Bindings} {n : NodeId}
    (h : ofNode tree bindings n = .ok l) : l.Laid := by
  have hwithin : ∀ fuel n, ofNodeWithin tree bindings fuel n = .ok l → l.Laid := by
    intro fuel
    induction fuel with
    | zero =>
        intro n h
        cases h
    | succ fuel ih =>
        intro n h
        rw [ofNodeWithin] at h
        split at h
        · cases h
        · cases h
          exact laid_ofProjection _ _ _
        · cases h
          exact laid_ofDefinition _
        · exact ih _ h
  exact hwithin _ n h

/-- Properties are laid out one by one. -/
theorem exists_field_of_mem_place {fields : List Field} {start : Nat} {p : PropertyLayout}
    (h : p ∈ place start fields) : ∃ f ∈ fields, ∃ start', p = f.layout start' := by
  induction fields generalizing start with
  | nil => cases h
  | cons f rest ih =>
      rcases List.mem_cons.1 h with rfl | h
      · exact ⟨f, List.mem_cons_self, start, rfl⟩
      · obtain ⟨g, hg, start', rfl⟩ := ih h
        exact ⟨g, List.mem_cons_of_mem f hg, start', rfl⟩

/-- Properties are laid out in order. -/
theorem forall₂_place (fields : List Field) (start : Nat) :
    List.Forall₂ (fun f p => ∃ start', p = f.layout start') fields (place start fields) := by
  induction fields generalizing start with
  | nil => exact .nil
  | cons f rest ih => exact .cons ⟨start, rfl⟩ (ih _)

theorem map_name_place (fields : List Field) (start : Nat) :
    (place start fields).map PropertyLayout.name = fields.map Field.name := by
  induction fields generalizing start with
  | nil => rfl
  | cons f rest ih =>
      rw [place, List.map_cons, List.map_cons, ih]
      rfl

/-- Every field has a property in its place. -/
theorem getElem?_place {fields : List Field} {f : Field} {i : Nat} (h : fields[i]? = some f)
    (start : Nat) : ∃ start', (place start fields)[i]? = some (f.layout start') := by
  induction fields generalizing i start with
  | nil => cases h
  | cons g rest ih =>
      cases i with
      | zero =>
          cases h
          exact ⟨start, rfl⟩
      | succ i => exact ih h _

/-- Every property of a layout has the columns of its type. -/
theorem Laid.property (h : l.Laid) {p : PropertyLayout} (hp : p ∈ l.properties) : p.Laid := by
  obtain ⟨fields, rfl⟩ := h
  obtain ⟨f, -, start, rfl⟩ := exists_field_of_mem_place hp
  exact f.laid_layout start

/-- The columns of properties that are laid out from a place on are numbered
from there. -/
theorem ordinals_place (fields : List Field) (start : Nat) :
    ((place start fields).flatMap PropertyLayout.columns).map Column.ordinal =
      List.range' start ((place start fields).flatMap PropertyLayout.columns).length := by
  induction fields generalizing start with
  | nil => rfl
  | cons f rest ih =>
      have hfirst := f.map_ordinal_layout start
      have hlength := congrArg List.length hfirst
      rw [List.length_map, List.length_range'] at hlength
      rw [place, List.flatMap_cons, List.map_append, List.length_append, hfirst, ih, hlength]
      exact List.range'_append_1

/-- **Numbering.**  The columns of a row are numbered from zero without gaps. -/
theorem Laid.ordinals (h : l.Laid) :
    l.columns.map Column.ordinal = List.range l.columns.length := by
  obtain ⟨fields, rfl⟩ := h
  rw [columns, ofFields, ordinals_place, List.range_eq_range']

/-- A property is the first one of a name. -/
def FirstNamed (l : Layout) (name : String) (p : PropertyLayout) : Prop :=
  sameName p.name name = true ∧ ∃ before behind, l.properties = before ++ p :: behind ∧
    ∀ q ∈ before, sameName q.name name = false

/-- Properties are found by the first name that fits. -/
theorem property?_eq_some_iff {name : String} {p : PropertyLayout} :
    l.property? name = some p ↔ l.FirstNamed name p := by
  simp [property?, FirstNamed, List.find?_eq_some_iff_append]

theorem FirstNamed.mem {name : String} {p : PropertyLayout} (h : l.FirstNamed name p) :
    p ∈ l.properties := by
  obtain ⟨-, before, behind, hproperties, -⟩ := h
  simp [hproperties]

/-- A layout has a property of a name if it was laid out with one. -/
theorem property?_ofFields_eq_none_iff {fields : List Field} {name : String} :
    (ofFields fields).property? name = none ↔ ∀ f ∈ fields, sameName f.name name = false := by
  have hnames := map_name_place fields 0
  calc (ofFields fields).property? name = none
      ↔ ∀ other ∈ (place 0 fields).map PropertyLayout.name, sameName other name = false := by
        simp [property?, ofFields]
    _ ↔ ∀ f ∈ fields, sameName f.name name = false := by
        rw [hnames, List.forall_mem_map]

/-- **Properties by name.**  A name stands for the property in the place of the first
field that has it. -/
theorem property?_ofFields (fields : List Field) (name : String) :
    (ofFields fields).property? name =
      (fields.findIdx? (fun f => sameName f.name name)).bind
        (fun i => (ofFields fields).properties[i]?) := by
  have hnames := map_name_place fields 0
  have hindex : (place 0 fields).findIdx? (fun p => sameName p.name name) =
      fields.findIdx? (fun f => sameName f.name name) := by
    calc (place 0 fields).findIdx? (fun p => sameName p.name name)
        = ((place 0 fields).map PropertyLayout.name).findIdx? (fun other => sameName other name) := by
          rw [List.findIdx?_map]
          rfl
      _ = (fields.map Field.name).findIdx? (fun other => sameName other name) := by rw [hnames]
      _ = fields.findIdx? (fun f => sameName f.name name) := by
          rw [List.findIdx?_map]
          rfl
  rw [property?, List.find?_eq_bind_findIdx?_getElem?, ← hindex]
  rfl

/-- If some field has a name, the name stands for the first one that has it. -/
theorem exists_property?_ofFields {fields : List Field} {f : Field} {i : Nat} {name : String}
    (hi : fields[i]? = some f) (hname : sameName f.name name) :
    ∃ first ≤ i, ∃ g start, fields[first]? = some g ∧ sameName g.name name ∧
      (∀ j < first, ∀ e, fields[j]? = some e → ¬ sameName e.name name) ∧
      (ofFields fields).properties[first]? = some (g.layout start) ∧
      (ofFields fields).property? name = some (g.layout start) := by
  obtain ⟨first, hfirst⟩ : ∃ first, fields.findIdx? (fun f => sameName f.name name) = some first :=
    Option.isSome_iff_exists.1 (List.findIdx?_isSome.trans
      (List.any_eq_true.2 ⟨f, List.mem_of_getElem? hi, hname⟩))
  obtain ⟨hlt, hsame, hearlier⟩ := List.findIdx?_eq_some_iff_getElem.1 hfirst
  have hunnamed : ∀ j < first, ∀ e, fields[j]? = some e → ¬ sameName e.name name := by
    intro j hj e he
    obtain ⟨_, rfl⟩ := List.getElem?_eq_some_iff.1 he
    exact hearlier j hj
  have hle : first ≤ i := by
    by_contra hlt
    exact hunnamed i (Nat.lt_of_not_le hlt) f hi hname
  have hg := List.getElem?_eq_getElem hlt
  obtain ⟨start, hp⟩ := getElem?_place hg 0
  refine ⟨first, hle, _, start, hg, hsame, hunnamed, hp, ?_⟩
  rw [property?_ofFields, hfirst]
  exact hp

end Layout

end UnionScript
