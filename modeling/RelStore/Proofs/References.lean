import Mathlib.Data.List.TakeWhile
import RelStore.Proofs.Mapping
import RelStore.Row
import RelStore.Schema

/-!
# Qualified references

A reference is taken apart at its last dot. Where the name of a column has no dot, a reference that
is qualified by a table is taken apart into just these two (`splitQualified?_qualify`), so that no
two columns share a qualified reference whatever dots are in the names of the tables. A row to which
a qualified reference leads is read under the whole reference first and under the bare name after
that (`Row.resolve?_qualify`).
-/

namespace RelStore

/-- What stands around the first occurrence of a delimiter makes up a text with the delimiter. -/
theorem Text.splitFirst?_append {before : Text} {delimiter : CodePoint} (after : Text)
    (hbefore : delimiter ∉ before) :
    splitFirst? (before ++ delimiter :: after) delimiter = some (before, after) := by
  have hpass : ∀ c ∈ before, (c != delimiter) = true := by
    intro c hc
    exact bne_iff_ne.mpr (ne_of_mem_of_not_mem hc hbefore)
  have honward : onward (before ++ delimiter :: after) delimiter = delimiter :: after := by
    rw [onward, List.dropWhile_append_of_pos hpass, List.dropWhile_cons_of_neg (by simp)]
  have hupTo : upTo (before ++ delimiter :: after) delimiter = before := by
    rw [upTo, List.takeWhile_append_of_pos hpass, List.takeWhile_cons_of_neg (by simp),
      List.append_nil]
  rw [splitFirst?, honward, hupTo]

/-- A text without a delimiter is not split at it. -/
theorem Text.splitFirst?_of_notMem {text : Text} {delimiter : CodePoint}
    (h : delimiter ∉ text) : splitFirst? text delimiter = none := by
  have honward : onward text delimiter = [] := by
    rw [onward, List.dropWhile_eq_nil_iff]
    intro c hc
    exact bne_iff_ne.mpr (ne_of_mem_of_not_mem hc h)
  rw [splitFirst?, honward]

/-- A name has no dot. -/
def Plain (name : Text) : Prop := CodePoint.char '.' ∉ name

/-- A qualified reference has a dot between its parts. -/
theorem qualify_eq (table column : Text) : qualify table column = table ++ .char '.' :: column := by
  have hdot : (Text.ofString "." : Text) = [.char '.'] := rfl
  rw [qualify, hdot, List.append_assoc, List.singleton_append]

/-- A qualified reference is taken apart into its table and its column. -/
theorem splitQualified?_qualify (table : Text) {column : Text} (h : Plain column) :
    splitQualified? (qualify table column) = some (table, column) := by
  have hreverse : (qualify table column).reverse =
      column.reverse ++ .char '.' :: table.reverse := by
    rw [qualify_eq, List.reverse_append, List.reverse_cons, List.append_assoc,
      List.singleton_append]
  have hcolumn : CodePoint.char '.' ∉ column.reverse := by
    rw [List.mem_reverse]
    exact h
  rw [splitQualified?, Text.splitLast?, hreverse, Text.splitFirst?_append _ hcolumn]
  simp

/-- A name without a dot is no qualified reference. -/
theorem splitQualified?_of_plain {name : Text} (h : Plain name) : splitQualified? name = none := by
  have hreverse : CodePoint.char '.' ∉ name.reverse := by
    rw [List.mem_reverse]
    exact h
  rw [splitQualified?, Text.splitLast?, Text.splitFirst?_of_notMem hreverse, Option.map_none]

/-- A qualified reference is not a name without a dot. -/
theorem qualify_ne_of_plain {name : Text} (h : Plain name) (table column : Text) :
    qualify table column ≠ name := by
  rintro rfl
  refine h ?_
  rw [qualify_eq]
  exact List.mem_append_right _ List.mem_cons_self

/-- Qualified references are the same only for the same table and the same column. -/
theorem qualify_inj {table other column name : Text} (hcolumn : Plain column) (hname : Plain name) :
    qualify table column = qualify other name ↔ table = other ∧ column = name := by
  constructor
  · intro h
    have hsplit := congrArg splitQualified? h
    rw [splitQualified?_qualify _ hcolumn, splitQualified?_qualify _ hname] at hsplit
    exact Prod.mk.inj (Option.some.inj hsplit)
  · rintro ⟨rfl, rfl⟩
    rfl

/-- A name with a dot is qualified: what stands after the last dot has none. -/
theorem exists_eq_qualify {name : Text} (h : ¬Plain name) :
    ∃ table column, Plain column ∧ name = qualify table column := by
  have hmem : CodePoint.char '.' ∈ name.reverse := List.mem_reverse.mpr (not_not.mp h)
  obtain ⟨after, before, hsplit, hplain⟩ := List.eq_append_cons_of_mem hmem
  refine ⟨before.reverse, after.reverse, fun hdot => hplain (List.mem_reverse.mp hdot), ?_⟩
  rw [qualify_eq, ← List.reverse_reverse name, hsplit, List.reverse_append, List.reverse_cons,
    List.append_assoc, List.singleton_append]

/-- A reference that is not taken apart has no dot. -/
theorem plain_of_splitQualified? {reference : Text} (h : splitQualified? reference = none) :
    Plain reference := by
  by_contra hdot
  obtain ⟨table, column, hcolumn, rfl⟩ := exists_eq_qualify hdot
  rw [splitQualified?_qualify table hcolumn] at h
  cases h

/-- The parts of a reference that is taken apart make it up. -/
theorem eq_qualify_of_splitQualified? {reference table column : Text}
    (h : splitQualified? reference = some (table, column)) : reference = qualify table column := by
  by_cases hplain : Plain reference
  · rw [splitQualified?_of_plain hplain] at h
    cases h
  · obtain ⟨_, _, hcolumn, rfl⟩ := exists_eq_qualify hplain
    rw [splitQualified?_qualify _ hcolumn] at h
    cases h
    rfl

instance (name : Text) : Decidable (Plain name) := inferInstanceAs (Decidable ¬_)

/-- The name of a column has no dot. -/
def ColumnName.Plain : ColumnName → Prop
  | .text name => RelStore.Plain name
  | .int _ | .float _ | .bool _ => True

instance : DecidablePred ColumnName.Plain
  | .text name => inferInstanceAs (Decidable (RelStore.Plain name))
  | .int _ | .float _ | .bool _ => inferInstanceAs (Decidable True)

/-- No column of a schema has a dot in its name. -/
def Schema.Plain (schema : Schema) : Prop := ∀ column ∈ schema.columns, column.name.Plain

instance (schema : Schema) : Decidable schema.Plain :=
  inferInstanceAs (Decidable (∀ column ∈ schema.columns, column.name.Plain))

/-- A column of a schema without dots has a name without a dot. -/
theorem Schema.Plain.of_name {schema : Schema} (h : schema.Plain) {column : Column}
    (hcolumn : column ∈ schema.columns) {name : Text} (hname : column.name = .text name) :
    RelStore.Plain name := by
  have hplain := h column hcolumn
  rw [hname] at hplain
  exact hplain

/-- No cell of a row has a dot in its name. -/
def Row.Plain (row : Row) : Prop := ∀ name ∈ row.names, name.Plain

/-- In a row without dots there is nothing under a qualified reference. -/
theorem Row.Plain.get?_qualify {row : Row} (h : row.Plain) (table column : Text) :
    Mapping.get? row (.text (qualify table column)) = none := by
  rw [← Option.not_isSome_iff_eq_none, Mapping.isSome_get?_iff]
  intro hmem
  exact qualify_ne_of_plain (h _ hmem) table column rfl

/-- A qualified reference leads to what a row has under it, or else under the bare name. -/
theorem Row.resolve?_qualify (row : Row) (table : Text) {column : Text}
    (h : RelStore.Plain column) :
    row.resolve? (qualify table column) =
      (Mapping.get? row (.text (qualify table column))).or (Mapping.get? row (.text column)) := by
  rw [Row.resolve?, splitQualified?_qualify table h]
  cases Mapping.get? row (.text (qualify table column)) <;> rfl

end RelStore
