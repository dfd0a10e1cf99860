import Pictogram.Proofs.Markup.TagReading

/-! # Namespaces in force

The declarations of the open elements, looked up from the innermost outwards, make up the scope of the
place where the reader is (`InForce`).  Opening an element extends both in the same way
(`inForce_within`), and a name is resolved to what it stands for in the scope (`resolve_eq`). -/

namespace Pictogram

open Source

/-! ### Written names -/

namespace Scope

theorem splitAtColon_eq (written : Text) :
    splitAtColon written =
      if (written.takeWhile (· ≠ unit ':')).length < written.length then
        some (written.takeWhile (· ≠ unit ':'), written.drop ((written.takeWhile (· ≠ unit ':')).length + 1))
      else none := by
  induction written with
  | nil => rfl
  | cons u t ih =>
      by_cases hu : u = unit ':'
      · simp [splitAtColon, hu]
      · rw [splitAtColon, if_neg hu, ih, List.takeWhile_cons_of_pos (by simpa using hu)]
        simp only [List.length_cons, Nat.add_lt_add_iff_right, List.drop_succ_cons]
        split <;> rfl

theorem split_eq (written : Text) :
    ElementName.split written = (splitAtColon written).getD ([], written) := by
  rw [splitAtColon_eq]
  simp only [ElementName.split]
  by_cases h : (written.takeWhile (· ≠ unit ':')).length < written.length
  · rw [if_pos h, if_pos h, Option.getD_some]
  · rw [if_neg h, if_neg h, Option.getD_none]

end Scope

/-! ### Declarations -/

namespace Table

theorem foldl_insert_of_nodup {es : List (Text × Text)} (found : List (Text × Text))
    (h : ((found ++ es).map Prod.fst).Nodup) :
    es.foldl (fun t e => t.insert e.1 e.2) (Table.mk found) = ⟨found ++ es⟩ := by
  induction es generalizing found with
  | nil => simp
  | cons e es ih =>
      have hfresh : e.1 ∉ found.map Prod.fst := by
        rw [List.map_append, List.map_cons] at h
        intro hm
        exact (List.nodup_append.mp h).2.2 _ hm _ (by simp) rfl
      rw [List.foldl_cons, insert_of_not_mem hfresh, ih _ (by simpa using h)]
      simp

theorem ofList_of_nodup {es : List (Text × Text)} (h : (es.map Prod.fst).Nodup) : ofList es = ⟨es⟩ :=
  foldl_insert_of_nodup [] h

/-- An attribute declares a label when it has the name for that. -/
theorem declaration?_eq_some_iff {entry : Text × Text} (h : entry.1 ≠ lit "xmlns:") {label value : Text} :
    declaration? entry = some (label, value) ↔ entry = (Scope.declaring label, value) := by
  obtain ⟨name, v⟩ := entry
  have hlen : ∀ t : Text, lit "xmlns:" ++ t ≠ lit "xmlns" := by
    intro t e
    have := congrArg List.length e
    rw [List.length_append, show (lit "xmlns:").length = 6 by decide, show (lit "xmlns").length = 5 by decide] at this
    omega
  unfold declaration? Scope.declaring
  by_cases hname : name = lit "xmlns"
  · by_cases hlabel : label = []
    · simp [hname, hlabel]
    · simp [hname, hlabel, Ne.symm hlabel, Ne.symm (hlen label)]
  · simp only [if_neg hname, Option.map_eq_some_iff, Text.stripFront?_eq_some_iff, Prod.mk.injEq]
    constructor
    · rintro ⟨label', rfl, rfl, rfl⟩
      have hlabel : label' ≠ [] := by
        rintro rfl
        exact h (List.append_nil _)
      simp [hlabel]
    · rintro ⟨hn, rfl⟩
      by_cases hlabel : label = []
      · rw [if_pos hlabel] at hn
        exact absurd hn hname
      · rw [if_neg hlabel] at hn
        exact ⟨label, hn, rfl, rfl⟩

theorem nodup_declared {attributes : List (Text × Text)} (ha : AttributesOk attributes) :
    ((attributes.filterMap declaration?).map Prod.fst).Nodup := by
  obtain ⟨-, hnodup, hlabelled⟩ := ha
  induction attributes with
  | nil => exact List.nodup_nil
  | cons e es ih =>
      rw [List.map_cons, List.nodup_cons] at hnodup
      have ih := ih hnodup.2 (fun e' he' => hlabelled e' (List.mem_cons_of_mem e he'))
      cases hd : declaration? e with
      | none => rwa [List.filterMap_cons_none hd]
      | some p =>
          obtain ⟨label, value⟩ := p
          have he := (declaration?_eq_some_iff (hlabelled e (by simp))).mp hd
          rw [List.filterMap_cons_some hd, List.map_cons, List.nodup_cons]
          refine ⟨?_, ih⟩
          intro hm
          obtain ⟨p', hp', hfst⟩ := List.mem_map.mp hm
          obtain ⟨e', he', hd'⟩ := List.mem_filterMap.mp hp'
          have he'' := (declaration?_eq_some_iff (hlabelled e' (List.mem_cons_of_mem e he'))).mp hd'
          apply hnodup.1
          refine List.mem_map.mpr ⟨e', he', ?_⟩
          rw [he, he'', hfst]

/-- The declarations of well-formed attributes, by label. -/
theorem get?_declarations {attributes : List (Text × Text)} (ha : AttributesOk attributes) (label : Text) :
    (declarations ⟨attributes⟩).get? label = attributes.lookup (Scope.declaring label) := by
  unfold declarations get?
  rw [ofList_of_nodup (nodup_declared ha)]
  have hlabelled := ha.labelled
  clear ha
  induction attributes with
  | nil => rfl
  | cons e es ih =>
      have ih := ih (fun e' he' => hlabelled e' (List.mem_cons_of_mem e he'))
      obtain ⟨name, v⟩ := e
      have hiff (l w : Text) : declaration? (name, v) = some (l, w) ↔ (name, v) = (Scope.declaring l, w) :=
        declaration?_eq_some_iff (hlabelled (name, v) (by simp))
      cases hd : declaration? (name, v) with
      | none =>
          have hne : Scope.declaring label ≠ name := by
            intro h
            rw [(hiff label v).mpr (by rw [h])] at hd
            cases hd
          rw [List.filterMap_cons_none hd, ih, List.lookup_cons, beq_false_of_ne hne]
      | some p =>
          obtain ⟨label', value⟩ := p
          obtain ⟨rfl, rfl⟩ := Prod.mk.inj ((hiff label' value).mp hd)
          rw [List.filterMap_cons_some hd, List.lookup_cons, List.lookup_cons]
          by_cases hl : label = label'
          · simp [hl]
          · have hne : Scope.declaring label ≠ Scope.declaring label' := by
              intro h
              rw [(hiff label v).mpr (by rw [h])] at hd
              exact hl (Prod.mk.inj (Option.some.inj hd)).1
            rw [beq_false_of_ne hl, beq_false_of_ne hne]
            exact ih

end Table

/-! ### Open elements -/

namespace Reader

/-- The declarations of the open elements make up the scope. -/
def InForce (opened : List OpenElement) (scope : Scope) : Prop :=
  ∀ label, (opened.findSome? fun e => e.declared.get? label) = scope label

theorem inForce_outermost : InForce [] .outermost := fun _ => rfl

theorem inForce_within {opened : List OpenElement} {scope : Scope} {attributes : List (Text × Text)}
    (h : InForce opened scope) (ha : AttributesOk attributes) (written : Text) (name : ElementName) :
    InForce (⟨written, name, Table.declarations ⟨attributes⟩⟩ :: opened) (scope.within attributes) := by
  intro label
  rw [List.findSome?_cons, Table.get?_declarations ha, h label]
  unfold Scope.within
  cases attributes.lookup (Scope.declaring label) <;> rfl

/-- A name is resolved in its scope. -/
theorem resolve_eq {opened : List OpenElement} {scope : Scope} (h : InForce opened scope) (written : Text) :
    ElementName.resolve (opened.map OpenElement.declared) written = scope.name written := by
  unfold ElementName.resolve Scope.name
  rw [Scope.split_eq]
  have hspace (label : Text) :
      ((opened.map OpenElement.declared).findSome? fun d => d.get? label).getD label = scope.space label := by
    rw [List.findSome?_map, Scope.space, ← h label]
    rfl
  cases Scope.splitAtColon written with
  | none => simp [hspace]
  | some p => simp [hspace]

end Reader

end Pictogram
