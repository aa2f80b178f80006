import Mathlib.Data.List.Induction
import Mathlib.Data.List.Pairwise
import UnionScript.Proofs.Directory
import UnionScript.Schema.Catalog

/-!
# Histories of a catalog

A catalog is built by calls that register an object or the members of an enumeration.  Both may
be refused: an object as a whole, an enumeration at the first member whose name is taken, when
the members before it are already registered.  Whatever the calls and their outcomes, an entry
is only ever added behind those that are there.  So the objects of a catalog are those that were
accepted, one for each name and one for each positive code, and looking them up by name or by
code finds them again.

* `Catalog.perform_object_cases`, `Catalog.addMembers_spec` — what a call does;
* `Catalog.Consistent` — the invariant, `Catalog.consistent_after` for every history;
* `Catalog.mem_values_after_iff` — the objects are those that were accepted.

Main statement: `catalog_keeps_what_it_accepts`.
-/

namespace UnionScript

namespace Catalog

variable {c : Catalog} {d e : Definition}

/-- A call that registers something. -/
inductive Call where
  | object (d : Definition)
  | enumeration (name : String) (code : TypeCode) (members : List (String × Identity))

/-- What a call leaves behind, and the fault if it is refused. -/
def perform (c : Catalog) : Call → Catalog × Option SchemaFault
  | .object d =>
    match c.addObject d with
    | .ok c' => (c', none)
    | .error fault => (c, some fault)
  | .enumeration name code members => addMembers name code members c

/-- The catalog after a history of calls. -/
def after (history : List Call) : Catalog :=
  history.foldl (fun c call => (c.perform call).1) empty

/-- An object was accepted at some time of a history. -/
def Accepted (history : List Call) (d : Definition) : Prop :=
  ∃ earlier later, history = earlier ++ .object d :: later ∧
    ((after earlier).perform (.object d)).2 = none

/-- Two objects cannot be in one catalog: they have the same name or the same positive code. -/
def Clash (d e : Definition) : Prop :=
  sameName d.name e.name = true ∨ TypeCode.any < d.code ∧ d.code = e.code

/-- The entry of a member of an enumeration. -/
def memberEntry (enumeration : String) (code : TypeCode) (member : String × Identity) :
    String × EnumMember :=
  (memberKey enumeration member.1, ⟨enumeration, member.1, code, member.2⟩)

/-- The objects of a catalog stand under their names, and no two of them clash. -/
structure Consistent (c : Catalog) : Prop where
  keyed : ∀ entry ∈ c.objects.entries, entry.1 = nameKey entry.2.name
  apart : c.objects.values.Pairwise (fun d e => ¬ Clash d e)

/-- Members of an enumeration were registered up to one whose name was taken by then, and no name
before it was. -/
structure CutShort (c c' : Catalog) (enumeration : String) (code : TypeCode)
    (before : List (String × Identity)) (member : String) : Prop where
  objects : c'.objects = c.objects
  members : c'.members.entries = c.members.entries ++ before.map (memberEntry enumeration code)
  fresh : (c.members.keys ++ before.map (fun m => memberKey enumeration m.1)).Nodup
  taken : memberKey enumeration member ∈
    c.members.keys ++ before.map (fun m => memberKey enumeration m.1)

/-- A catalog still has all that was registered in another one, in place. -/
structure Extends (c' c : Catalog) : Prop where
  objects : c.objects.entries <+: c'.objects.entries
  members : c.members.entries <+: c'.members.entries

theorem Extends.refl (c : Catalog) : c.Extends c :=
  ⟨List.prefix_rfl, List.prefix_rfl⟩

theorem Extends.trans {c₁ c₂ c₃ : Catalog} (h : c₃.Extends c₂) (h' : c₂.Extends c₁) :
    c₃.Extends c₁ :=
  ⟨h'.objects.trans h.objects, h'.members.trans h.members⟩

/-- What is registered is found again in every extension. -/
theorem Extends.lookup {c' : Catalog} (h : c'.Extends c) (name : String) :
    (∀ d, c.object? name = some d → c'.object? name = some d) ∧
      ∀ m, c.member? name = some m → c'.member? name = some m :=
  ⟨fun _ => Directory.find?_of_entries_prefix h.objects,
    fun _ => Directory.find?_of_entries_prefix h.members⟩

theorem Clash.symm (h : Clash d e) : Clash e d := by
  rcases h with hname | ⟨hpositive, hcode⟩
  · exact Or.inl (by rwa [sameName, BEq.comm])
  · exact Or.inr ⟨hcode ▸ hpositive, hcode.symm⟩

instance : Std.Symm (fun d e => ¬ Clash d e) :=
  ⟨fun _ _ h h' => h h'.symm⟩

theorem isSome_objectOfCode?_iff {code : TypeCode} :
    (c.objectOfCode? code).isSome = true ↔ ∃ e ∈ c.objects.values, e.code = code := by
  simp [objectOfCode?]

/-- A name is taken in a consistent catalog by an object of that name. -/
theorem Consistent.contains_iff (hc : c.Consistent) (name : String) :
    c.objects.contains (nameKey name) = true ↔
      ∃ e ∈ c.objects.values, sameName name e.name = true := by
  rw [Directory.contains_iff, Directory.keys, Directory.values]
  simp only [List.mem_map, exists_exists_and_eq_and, sameName, beq_iff_eq]
  refine exists_congr fun entry => and_congr_right fun hentry => ?_
  rw [hc.keyed entry hentry, eq_comm]

/-- **Registering an object.**  An object that clashes with a registered one is refused and
changes nothing; any other object is put behind all others. -/
theorem perform_object_cases (hc : c.Consistent) (d : Definition) :
    ((∃ e ∈ c.objects.values, Clash d e) ∧ ∃ fault, c.perform (.object d) = (c, some fault)) ∨
      ((∀ e ∈ c.objects.values, ¬ Clash d e) ∧
        ∃ c', c.perform (.object d) = (c', none) ∧ c'.members = c.members ∧
          c'.objects.entries = c.objects.entries ++ [(nameKey d.name, d)]) := by
  simp only [perform, addObject]
  by_cases hname : c.objects.contains (nameKey d.name) = true
  · obtain ⟨e, he, hsame⟩ := (hc.contains_iff d.name).1 hname
    exact Or.inl ⟨⟨e, he, Or.inl hsame⟩, _, by rw [if_pos hname]⟩
  by_cases hcode : TypeCode.any < d.code ∧ (c.objectOfCode? d.code).isSome = true
  · obtain ⟨e, he, hsame⟩ := isSome_objectOfCode?_iff.1 hcode.2
    exact Or.inl ⟨⟨e, he, Or.inr ⟨hcode.1, hsame.symm⟩⟩, _, by rw [if_neg hname, if_pos hcode]⟩
  refine Or.inr ⟨?_, { c with objects := c.objects.insert (nameKey d.name) d },
    by rw [if_neg hname, if_neg hcode], rfl, ?_⟩
  · rintro e he (hsame | ⟨hpositive, hsame⟩)
    · exact hname ((hc.contains_iff d.name).2 ⟨e, he, hsame⟩)
    · exact hcode ⟨hpositive, isSome_objectOfCode?_iff.2 ⟨e, he, hsame.symm⟩⟩
  · exact Directory.entries_insert_of_notMem fun h => hname (Directory.contains_iff.2 h)

/-- **Registering members.**  Members are put behind all others one by one, up to the first one
whose name is taken by then. -/
theorem addMembers_spec (enumeration : String) (code : TypeCode)
    (members : List (String × Identity)) (c : Catalog) :
    (addMembers enumeration code members c).1.objects = c.objects ∧
      ∃ before behind, members = before ++ behind ∧
        (addMembers enumeration code members c).1.members.entries =
          c.members.entries ++ before.map (memberEntry enumeration code) ∧
        ((behind = [] ∧ (addMembers enumeration code members c).2 = none) ∨
          ∃ member rest, behind = member :: rest ∧
            memberKey enumeration member.1 ∈
              (addMembers enumeration code members c).1.members.keys ∧
            (addMembers enumeration code members c).2 =
              some (.duplicateMember enumeration member.1)) := by
  induction members generalizing c with
  | nil => exact ⟨rfl, [], [], rfl, (List.append_nil _).symm, Or.inl ⟨rfl, rfl⟩⟩
  | cons member rest ih =>
      rw [addMembers]
      by_cases htaken : c.members.contains (memberKey enumeration member.1) = true
      · rw [if_pos htaken]
        exact ⟨rfl, [], _, rfl, (List.append_nil _).symm,
          Or.inr ⟨member, rest, rfl, Directory.contains_iff.1 htaken, rfl⟩⟩
      · rw [if_neg htaken]
        obtain ⟨hobjects, before, behind, hsplit, hentries, hend⟩ :=
          ih ⟨c.objects, c.members.insert (memberKey enumeration member.1)
            ⟨enumeration, member.1, code, member.2⟩⟩
        have hfresh : memberKey enumeration member.1 ∉ c.members.keys :=
          fun h => htaken (Directory.contains_iff.2 h)
        refine ⟨hobjects, member :: before, behind, congrArg _ hsplit, ?_, hend⟩
        rw [hentries, Directory.entries_insert_of_notMem hfresh, List.append_assoc]
        rfl

theorem values_of_entries {c' : Catalog} {l : List (String × Definition)}
    (h : c'.objects.entries = c.objects.entries ++ l) :
    c'.objects.values = c.objects.values ++ l.map Prod.snd := by
  rw [Directory.values, h, List.map_append]
  rfl

/-- No call removes or replaces an entry. -/
theorem extends_perform (hc : c.Consistent) (call : Call) : (c.perform call).1.Extends c := by
  cases call with
  | object d =>
      rcases perform_object_cases hc d with ⟨-, fault, h⟩ | ⟨-, c', h, hmembers, hentries⟩
      · rw [h]
        exact .refl c
      · rw [h]
        exact ⟨⟨_, hentries.symm⟩, hmembers ▸ List.prefix_rfl⟩
  | enumeration name code members =>
      obtain ⟨hobjects, before, -, -, hentries, -⟩ := addMembers_spec name code members c
      exact ⟨⟨[], by rw [List.append_nil, perform, hobjects]⟩, ⟨_, hentries.symm⟩⟩

/-- **One call.**  A consistent catalog stays consistent, whether the call is refused or not. -/
theorem Consistent.perform (hc : c.Consistent) (call : Call) : (c.perform call).1.Consistent := by
  cases call with
  | object d =>
      rcases perform_object_cases hc d with ⟨-, fault, h⟩ | ⟨hclash, c', h, -, hentries⟩
      · rwa [h]
      · rw [h]
        refine ⟨?_, ?_⟩
        · intro entry hentry
          rw [hentries, List.mem_append, List.mem_singleton] at hentry
          rcases hentry with hentry | rfl
          · exact hc.keyed entry hentry
          · rfl
        · rw [values_of_entries hentries, List.pairwise_append]
          refine ⟨hc.apart, List.pairwise_singleton _ _, ?_⟩
          intro e he d' hd'
          obtain rfl : d' = d := List.mem_singleton.1 hd'
          exact fun h => hclash e he h.symm
  | enumeration name code members =>
      have hobjects := (addMembers_spec name code members c).1
      exact ⟨by rw [Catalog.perform, hobjects]; exact hc.keyed,
        by rw [Catalog.perform, hobjects]; exact hc.apart⟩

theorem after_concat (history : List Call) (call : Call) :
    after (history ++ [call]) = ((after history).perform call).1 :=
  List.foldl_append

/-- **Every history.**  Any calls leave a consistent catalog. -/
theorem consistent_after (history : List Call) : (after history).Consistent := by
  induction history using List.reverseRecOn with
  | nil => exact ⟨fun _ h => absurd h List.not_mem_nil, List.Pairwise.nil⟩
  | append_singleton history call ih =>
      rw [after_concat]
      exact ih.perform call

/-- Later calls remove and replace nothing. -/
theorem extends_after (history more : List Call) :
    (after (history ++ more)).Extends (after history) := by
  induction more using List.reverseRecOn with
  | nil => rw [List.append_nil]; exact .refl _
  | append_singleton more call ih =>
      rw [← List.append_assoc, after_concat]
      exact (extends_perform (consistent_after _) call).trans ih

/-- One more call may accept one more object. -/
theorem accepted_concat_iff {history : List Call} {call : Call} :
    Accepted (history ++ [call]) d ↔
      Accepted history d ∨ (call = .object d ∧ ((after history).perform call).2 = none) := by
  constructor
  · rintro ⟨earlier, later, hhistory, haccepted⟩
    rcases List.eq_nil_or_concat later with rfl | ⟨later, last, rfl⟩
    · obtain ⟨rfl, hcall⟩ := List.append_inj' hhistory rfl
      cases hcall
      exact Or.inr ⟨rfl, haccepted⟩
    · rw [List.concat_eq_append, ← List.cons_append, ← List.append_assoc] at hhistory
      exact Or.inl ⟨earlier, later, (List.append_inj' hhistory rfl).1, haccepted⟩
  · rintro (⟨earlier, later, rfl, haccepted⟩ | ⟨rfl, haccepted⟩)
    · exact ⟨earlier, later ++ [call], by simp, haccepted⟩
    · exact ⟨history, [], rfl, haccepted⟩

/-- **Stored objects.**  The objects of a catalog are those that were accepted. -/
theorem mem_values_after_iff {history : List Call} :
    d ∈ (after history).objects.values ↔ Accepted history d := by
  induction history using List.reverseRecOn with
  | nil =>
      refine ⟨fun h => absurd h List.not_mem_nil, ?_⟩
      rintro ⟨earlier, later, hnil, -⟩
      simp at hnil
  | append_singleton history call ih =>
      rw [after_concat, accepted_concat_iff, ← ih]
      cases call with
      | object d' =>
          rcases perform_object_cases (consistent_after history) d' with
            ⟨-, fault, h⟩ | ⟨-, c', h, -, hentries⟩
          · simp [h]
          · simp [h, values_of_entries hentries, eq_comm]
      | enumeration name code members =>
          rw [perform, (addMembers_spec name code members _).1]
          simp

/-- An object stands under its name. -/
theorem Consistent.object?_eq_some_iff (hc : c.Consistent) {name : String} :
    c.object? name = some d ↔ d ∈ c.objects.values ∧ sameName d.name name = true := by
  rw [object?, Directory.find?_eq_some_iff, Directory.values, List.mem_map, sameName, beq_iff_eq]
  constructor
  · intro h
    exact ⟨⟨_, h, rfl⟩, (hc.keyed _ h).symm⟩
  · rintro ⟨⟨⟨key, d'⟩, h, rfl⟩, hname⟩
    rwa [← hname, ← hc.keyed _ h]

/-- **Positive codes.**  In whatever order objects are searched, the only object with the code
is found. -/
theorem Consistent.find?_code_iff (hc : c.Consistent) {code : TypeCode}
    (hpositive : TypeCode.any < code) {values : List Definition}
    (hvalues : values.Perm c.objects.values) :
    values.find? (fun e => e.code == code) = some d ↔ d ∈ c.objects.values ∧ d.code = code := by
  have hunique : ∀ e ∈ values, ∀ e' ∈ values,
      (e.code == code) = true → (e'.code == code) = true → e = e' := by
    intro e he e' he' hcode hcode'
    have hcode := eq_of_beq hcode
    have hcode' := eq_of_beq hcode'
    by_contra hne
    have hapart := hc.apart.forall (hvalues.mem_iff.1 he) (hvalues.mem_iff.1 he') hne
    exact hapart (Or.inr ⟨hcode ▸ hpositive, hcode.trans hcode'.symm⟩)
  rw [find?_eq_some_iff_of_unique hunique, hvalues.mem_iff, beq_iff_eq]

/-- **Refused objects.**  An object is accepted exactly if it clashes with none that was
accepted before, and changes nothing otherwise. -/
theorem perform_object_after (history : List Call) (d : Definition) :
    (((after history).perform (.object d)).2 = none ↔ ∀ e, Accepted history e → ¬ Clash d e) ∧
      ∀ c' fault, (after history).perform (.object d) = (c', some fault) → c' = after history := by
  rcases perform_object_cases (consistent_after history) d with
    ⟨⟨e, he, hclash⟩, fault, h⟩ | ⟨hclash, c', h, -, -⟩
  · rw [h]
    refine ⟨⟨nofun, fun hall => ?_⟩, fun c' fault' heq => (congrArg Prod.fst heq).symm⟩
    exact absurd hclash (hall e (mem_values_after_iff.1 he))
  · rw [h]
    refine ⟨⟨fun _ e he => hclash e (mem_values_after_iff.2 he), fun _ => rfl⟩, fun _ _ heq => ?_⟩
    cases congrArg Prod.snd heq

/-- **Refused members.**  The members of an enumeration are all registered, or those before the
first one whose name is taken. -/
theorem perform_enumeration {c' : Catalog} {enumeration : String} {code : TypeCode}
    {members : List (String × Identity)} :
    (c.perform (.enumeration enumeration code members) = (c', none) → c'.objects = c.objects ∧
        c'.members.entries = c.members.entries ++ members.map (memberEntry enumeration code)) ∧
      ∀ fault, c.perform (.enumeration enumeration code members) = (c', some fault) →
        ∃ before member rest, members = before ++ member :: rest ∧
          fault = .duplicateMember enumeration member.1 ∧
          CutShort c c' enumeration code before member.1 := by
  obtain ⟨hobjects, before, behind, rfl, hentries, hend⟩ :=
    addMembers_spec enumeration code members c
  rw [perform]
  refine ⟨fun h => ?_, fun fault h => ?_⟩
  · rw [h] at hobjects hentries hend
    rcases hend with ⟨rfl, -⟩ | ⟨_, _, _, _, hfault⟩
    · exact ⟨hobjects, by rw [List.append_nil, hentries]⟩
    · cases hfault
  · rw [h] at hobjects hentries hend
    rcases hend with ⟨-, hnone⟩ | ⟨member, rest, rfl, htaken, hfault⟩
    · cases hnone
    · have hkeys := congrArg (List.map Prod.fst) hentries
      rw [List.map_append, List.map_map] at hkeys
      refine ⟨before, member, rest, rfl, Option.some.inj hfault, hobjects, hentries, ?_, ?_⟩
      · exact hkeys ▸ c'.members.nodup
      · exact hkeys ▸ htaken

/-- **Catalogs keep what they accept.**  After any calls, refused or not, the objects of a catalog
stand under their names, and no two have the same name or the same positive code.  Looking up a
name gives the object of that name that was accepted, and looking up a positive code the object
that was accepted with that code, in whatever order objects are searched.  An object is accepted
exactly if it clashes with none that was accepted before, and changes nothing otherwise.  Members
of an enumeration are registered up to the first one whose name is taken.  Nothing that was
registered is ever removed or replaced. -/
theorem catalog_keeps_what_it_accepts (history : List Call) :
    (after history).Consistent ∧
    (∀ name d, (after history).object? name = some d ↔
      Accepted history d ∧ sameName d.name name = true) ∧
    (∀ code, TypeCode.any < code → ∀ d,
      ((after history).objectOfCode? code = some d ↔ Accepted history d ∧ d.code = code) ∧
      ∀ values : List Definition, values.Perm (after history).objects.values →
        (values.find? (fun e => e.code == code) = some d ↔ Accepted history d ∧ d.code = code)) ∧
    (∀ d, (((after history).perform (.object d)).2 = none ↔
        ∀ e, Accepted history e → ¬ Clash d e) ∧
      ∀ c' fault, (after history).perform (.object d) = (c', some fault) → c' = after history) ∧
    (∀ enumeration code members c',
      ((after history).perform (.enumeration enumeration code members) = (c', none) →
        c'.objects = (after history).objects ∧ c'.members.entries =
          (after history).members.entries ++ members.map (memberEntry enumeration code)) ∧
      ∀ fault, (after history).perform (.enumeration enumeration code members) = (c', some fault) →
        ∃ before member rest, members = before ++ member :: rest ∧
          fault = .duplicateMember enumeration member.1 ∧
          CutShort (after history) c' enumeration code before member.1) ∧
    ∀ more, (after (history ++ more)).Extends (after history) ∧
      ∀ name, (∀ d, (after history).object? name = some d →
          (after (history ++ more)).object? name = some d) ∧
        ∀ m, (after history).member? name = some m →
          (after (history ++ more)).member? name = some m := by
  have hconsistent := consistent_after history
  refine ⟨hconsistent, fun name d => ?_, fun code hpositive d => ⟨?_, fun values hvalues => ?_⟩,
    perform_object_after history, fun enumeration code members c' => perform_enumeration,
    fun more => ?_⟩
  · rw [hconsistent.object?_eq_some_iff, mem_values_after_iff]
  · rw [objectOfCode?, hconsistent.find?_code_iff hpositive (List.Perm.refl _),
      mem_values_after_iff]
  · rw [hconsistent.find?_code_iff hpositive hvalues, mem_values_after_iff]
  · have hextends := extends_after history more
    exact ⟨hextends, hextends.lookup⟩

/-- A history with a name in another case, a code that is in use and a colour that is listed
twice. -/
def paintHistory : List Call :=
  [.object ⟨5, "Paints", "_Paints", []⟩, .object ⟨6, "PAINTS", "_Other", []⟩,
    .object ⟨5, "Brushes", "_Brushes", []⟩, .object ⟨0, "Brushes", "_Brushes", []⟩,
    .enumeration "Colour" 7 [("Red", ⟨1⟩), ("Blue", ⟨2⟩), ("RED", ⟨3⟩), ("Green", ⟨4⟩)]]

/-- The paints are found by name and by code, in whatever order objects are searched; they refuse
what clashes with them, and a colour that is listed again is where registering colours ends. -/
theorem paintHistory_is_kept :
    Accepted paintHistory ⟨5, "Paints", "_Paints", []⟩ ∧
      (after paintHistory).objects.values.reverse.find? (fun e => e.code == 5) =
        some ⟨5, "Paints", "_Paints", []⟩ ∧
      (∃ fault, (after paintHistory).perform (.object ⟨5, "Tins", "_Tins", []⟩) =
        (after paintHistory, some fault)) ∧
      (∃ c' before member rest, [("White", ⟨5⟩), ("blue", ⟨6⟩)] = before ++ member :: rest ∧
        CutShort (after paintHistory) c' "Colour" 7 before member.1) ∧
      (after (paintHistory ++ paintHistory)).object? "paints" =
        some ⟨5, "Paints", "_Paints", []⟩ := by
  obtain ⟨-, hname, hcode, hobject, hmembers, hkept⟩ :=
    catalog_keeps_what_it_accepts paintHistory
  have hfound : (after paintHistory).object? "paints" = some ⟨5, "Paints", "_Paints", []⟩ := by
    decide +kernel
  have haccepted := ((hname "paints" _).1 hfound).1
  refine ⟨haccepted, ?_, ⟨.codeInUse 5 "Tins", ?_⟩, ?_,
    ((hkept paintHistory).2 "paints").1 _ hfound⟩
  · exact ((hcode 5 (by decide) _).2 _ (List.reverse_perm _)).2 ⟨haccepted, rfl⟩
  · have hfault : ((after paintHistory).perform (.object ⟨5, "Tins", "_Tins", []⟩)).2 =
        some (.codeInUse 5 "Tins") := by decide +kernel
    have hsame := (hobject ⟨5, "Tins", "_Tins", []⟩).2 _ _ (Prod.ext rfl hfault)
    exact Prod.ext hsame hfault
  · have hfault : ((after paintHistory).perform
        (.enumeration "Colour" 7 [("White", ⟨5⟩), ("blue", ⟨6⟩)])).2 =
        some (.duplicateMember "Colour" "blue") := by decide +kernel
    obtain ⟨before, member, rest, hsplit, -, hcut⟩ :=
      (hmembers "Colour" 7 [("White", ⟨5⟩), ("blue", ⟨6⟩)] _).2 _ (Prod.ext rfl hfault)
    exact ⟨_, before, member, rest, hsplit, hcut⟩

end Catalog

end UnionScript
