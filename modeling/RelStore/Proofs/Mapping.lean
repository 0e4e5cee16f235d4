import Mathlib.Data.List.Nodup
import RelStore.Mapping

/-!
# Laws of mappings

Putting a value under a name changes what is found there and nothing else (`Mapping.get?_put`), and
names stay in their places (`Mapping.names_put`). A mapping put into another one decides where it
has a name and leaves the rest (`Mapping.get?_putAll`).
-/

namespace RelStore.Mapping

variable {κ α : Type} [DecidableEq κ]

/-- Nothing is found in the mapping without entries. -/
theorem get?_nil (name : κ) : get? ([] : Mapping κ α) name = none := rfl

/-- A name leads to the first entry if it is the name of it, and else into the rest. -/
theorem get?_cons (entry : κ × α) (rest : Mapping κ α) (name : κ) :
    get? (entry :: rest) name = if entry.1 = name then some entry.2 else rest.get? name := by
  rw [get?, List.lookup_cons]
  by_cases h : entry.1 = name
  · rw [if_pos h, beq_iff_eq.mpr h.symm]
  · rw [if_neg h, beq_eq_false_iff_ne.mpr (Ne.symm h)]
    rfl

/-- A name has an entry when it is one of the names. -/
theorem isSome_get?_iff {m : Mapping κ α} {name : κ} :
    (m.get? name).isSome = true ↔ name ∈ m.names := by
  induction m with
  | nil => simp [get?, names]
  | cons entry rest ih =>
    rw [get?_cons, names, List.map_cons, List.mem_cons, ← names, ← ih]
    by_cases h : entry.1 = name
    · rw [if_pos h]
      exact iff_of_true rfl (.inl h.symm)
    · rw [if_neg h]
      exact ⟨.inr, fun hor => hor.resolve_left fun heq => h heq.symm⟩

/-- What is found under a name is one of the entries. -/
theorem mem_of_get? {m : Mapping κ α} {name : κ} {v : α} (h : m.get? name = some v) :
    (name, v) ∈ m := by
  induction m with
  | nil => cases h
  | cons entry rest ih =>
    rw [get?_cons] at h
    split at h
    · next heq =>
      cases h
      rw [← heq]
      exact List.mem_cons_self
    · exact List.mem_cons_of_mem _ (ih h)

/-- Where no two entries share a name, every entry is found under its name. -/
theorem get?_of_mem {m : Mapping κ α} (hnodup : m.names.Nodup) {name : κ} {v : α}
    (h : (name, v) ∈ m) : m.get? name = some v := by
  induction m with
  | nil => cases h
  | cons entry rest ih =>
    obtain ⟨hnot, hrest⟩ := List.nodup_cons.mp hnodup
    rw [get?_cons]
    rcases List.mem_cons.mp h with rfl | h
    · exact if_pos rfl
    · have hne : entry.1 ≠ name := by
        rintro rfl
        exact hnot (List.mem_map.mpr ⟨_, h, rfl⟩)
      rw [if_neg hne]
      exact ih hrest h

/-- A value that is put under a name is found there, and all else is as before. -/
theorem get?_put (m : Mapping κ α) (name : κ) (v : α) (k : κ) :
    (m.put name v).get? k = if name = k then some v else m.get? k := by
  induction m with
  | nil => exact get?_cons (name, v) [] k
  | cons entry rest ih =>
    obtain ⟨n, w⟩ := entry
    rw [put]
    split
    · next heq =>
      rw [get?_cons, get?_cons, heq]
      by_cases hk : name = k
      · rw [if_pos hk, if_pos hk]
      · rw [if_neg hk, if_neg hk, if_neg hk]
    · next hne =>
      rw [get?_cons, get?_cons, ih]
      by_cases hk : n = k
      · rw [if_pos hk, if_pos hk, if_neg fun heq => hne (hk.trans heq.symm)]
      · rw [if_neg hk, if_neg hk]

/-- A name that is put keeps its place, and a new one goes to the end. -/
theorem names_put (m : Mapping κ α) (name : κ) (v : α) :
    (m.put name v).names = if name ∈ m.names then m.names else m.names ++ [name] := by
  induction m with
  | nil => rfl
  | cons entry rest ih =>
    obtain ⟨n, w⟩ := entry
    have hcons : names ((n, w) :: rest) = n :: names rest := rfl
    rw [put, hcons]
    split
    · next heq =>
      rw [if_pos (heq ▸ List.mem_cons_self)]
      rfl
    · next hne =>
      change n :: (put rest name v).names = _
      rw [ih]
      by_cases hmem : name ∈ names rest
      · rw [if_pos hmem, if_pos (List.mem_cons_of_mem _ hmem)]
      · have hnot : name ∉ n :: names rest := by
          intro h
          rcases List.mem_cons.mp h with heq | h
          · exact hne heq.symm
          · exact hmem h
        rw [if_neg hmem, if_neg hnot]
        rfl

/-- Putting a value makes no two entries share a name. -/
theorem nodup_names_put {m : Mapping κ α} (h : m.names.Nodup) (name : κ) (v : α) :
    (m.put name v).names.Nodup := by
  rw [names_put]
  split
  · exact h
  · next hnot => exact List.nodup_append'.mpr ⟨h, List.nodup_singleton _, by simpa using hnot⟩

/-- After a value has been put, every entry is the new one or an old one. -/
theorem mem_put {m : Mapping κ α} {name : κ} {v : α} {entry : κ × α}
    (h : entry ∈ m.put name v) : entry = (name, v) ∨ entry ∈ m := by
  induction m with
  | nil => exact .inl (List.mem_singleton.mp h)
  | cons head rest ih =>
    obtain ⟨n, w⟩ := head
    rw [put] at h
    split at h
    · next heq =>
      rcases List.mem_cons.mp h with rfl | h
      · exact .inl (heq ▸ rfl)
      · exact .inr (List.mem_cons_of_mem _ h)
    · rcases List.mem_cons.mp h with rfl | h
      · exact .inr List.mem_cons_self
      · exact (ih h).imp_right (List.mem_cons_of_mem _)

/-- A mapping put into another one decides what is found under its names. -/
theorem get?_putAll (m : Mapping κ α) {entries : Mapping κ α} (h : entries.names.Nodup) (k : κ) :
    (m.putAll entries).get? k = (entries.get? k).or (m.get? k) := by
  induction entries generalizing m with
  | nil => rfl
  | cons entry rest ih =>
    obtain ⟨hnot, hrest⟩ := List.nodup_cons.mp h
    rw [putAll, List.foldl_cons, ← putAll, ih _ hrest, get?_put, get?_cons]
    by_cases hk : entry.1 = k
    · -- The name does not come again, so its value stays.
      have hnone : get? rest k = none := by
        rw [← Option.not_isSome_iff_eq_none, isSome_get?_iff, ← hk]
        exact hnot
      rw [if_pos hk, if_pos hk, hnone]
      rfl
    · rw [if_neg hk, if_neg hk]

/-- In two mappings side by side, the first one decides what is found under its names. -/
theorem get?_append (m n : Mapping κ α) (k : κ) :
    get? (m ++ n) k = (m.get? k).or (n.get? k) := List.lookup_append

/-- Entries that are spread out are found under a name as before, if each brings there just
itself. -/
theorem get?_flatMap {m : Mapping κ α} {spread : κ × α → Mapping κ α} {k : κ}
    (h : ∀ entry ∈ m, (spread entry).get? k = if entry.1 = k then some entry.2 else none) :
    get? (m.flatMap spread) k = m.get? k := by
  induction m with
  | nil => rfl
  | cons entry rest ih =>
    obtain ⟨hentry, hrest⟩ := List.forall_mem_cons.mp h
    rw [List.flatMap_cons, get?_append, hentry, ih hrest, get?_cons]
    split
    · exact Option.some_or
    · exact Option.none_or

/-- Putting values makes no two entries share a name. -/
theorem nodup_names_putAll {m : Mapping κ α} (h : m.names.Nodup) (entries : List (κ × α)) :
    (m.putAll entries).names.Nodup := by
  induction entries generalizing m with
  | nil => exact h
  | cons entry rest ih =>
    rw [putAll, List.foldl_cons, ← putAll]
    exact ih (nodup_names_put h entry.1 entry.2)

/-- The mapping of named values of which no two share a name has each under its name. -/
theorem get?_ofList {entries : Mapping κ α} (h : entries.names.Nodup) (k : κ) :
    (ofList entries).get? k = entries.get? k := by
  rw [ofList, get?_putAll [] h]
  exact Option.or_none

/-- What is found under a name depends on the values of this name only. -/
theorem get?_putAll_filter {m n : Mapping κ α} {k : κ} (h : m.get? k = n.get? k)
    (entries : List (κ × α)) :
    (m.putAll entries).get? k = (n.putAll (entries.filter (·.1 = k))).get? k := by
  induction entries generalizing m n with
  | nil => exact h
  | cons entry rest ih =>
    rw [List.filter_cons]
    by_cases hk : entry.1 = k
    · rw [if_pos (decide_eq_true hk)]
      have hput : (m.put entry.1 entry.2).get? k = (n.put entry.1 entry.2).get? k := by
        rw [get?_put, get?_put, if_pos hk, if_pos hk]
      exact ih hput
    · rw [if_neg (by simpa using hk)]
      have hput : (m.put entry.1 entry.2).get? k = n.get? k := by
        rw [get?_put, if_neg hk, h]
      exact ih hput

/-- A value under a new name goes to the end. -/
theorem put_of_notMem {m : Mapping κ α} {name : κ} (h : name ∉ m.names) (v : α) :
    m.put name v = m ++ [(name, v)] := by
  induction m with
  | nil => rfl
  | cons entry rest ih =>
    have hne : entry.1 ≠ name := by
      rintro rfl
      exact h List.mem_cons_self
    have hrest : name ∉ names rest := fun hmem => h (List.mem_cons_of_mem _ hmem)
    rw [put, if_neg hne, ih hrest, List.cons_append]

/-- Entries under new names, of which no two are the same, go to the end. -/
theorem putAll_of_nodup {m entries : Mapping κ α} (h : (names (m ++ entries)).Nodup) :
    m.putAll entries = m ++ entries := by
  induction entries generalizing m with
  | nil => exact (List.append_nil m).symm
  | cons entry entries ih =>
    have hnot : entry.1 ∉ m.names := by
      rw [names, List.map_append] at h
      exact fun hmem => List.disjoint_of_nodup_append h hmem List.mem_cons_self
    have hlist : m ++ entry :: entries = (m ++ [(entry.1, entry.2)]) ++ entries := by
      rw [List.append_assoc, List.singleton_append]
    rw [hlist] at h ⊢
    rw [putAll, List.foldl_cons, ← putAll, put_of_notMem hnot, ih h]

/-- The mapping of named values of which no two share a name is just these values. -/
theorem ofList_of_nodup {entries : Mapping κ α} (h : entries.names.Nodup) :
    ofList entries = entries :=
  putAll_of_nodup (m := []) h

/-- Under each name of a mapping with other values is the other value. -/
theorem get?_mapValues {β : Type} (f : α → β) (m : Mapping κ α) (k : κ) :
    (m.mapValues f).get? k = (m.get? k).map f := by
  induction m with
  | nil => rfl
  | cons entry rest ih =>
    rw [mapValues, List.map_cons, ← mapValues, get?_cons, get?_cons, ih]
    split <;> rfl

/-- A mapping with other values has the same names. -/
theorem names_mapValues {κ α β : Type} (f : α → β) (m : Mapping κ α) :
    (m.mapValues f).names = m.names := by
  rw [names, mapValues, List.map_map]
  rfl

/-- A value under a name that is left out is left out. -/
theorem filter_put (keeps : κ → Bool) {m : Mapping κ α} {name : κ} (h : keeps name = false)
    (v : α) : ((m.put name v).filter fun entry => keeps entry.1) =
      m.filter fun entry => keeps entry.1 := by
  induction m with
  | nil => exact List.filter_cons_of_neg (by rw [h]; exact Bool.false_ne_true)
  | cons entry rest ih =>
    obtain ⟨n, w⟩ := entry
    rw [put]
    split
    · next heq => rw [List.filter_cons, List.filter_cons, heq, h]; rfl
    · rw [List.filter_cons, List.filter_cons, ih]

/-- Where no two entries share a name, there is one entry under a name at most. -/
theorem filter_name {m : Mapping κ α} (hnodup : m.names.Nodup) {name : κ} {v : α}
    (h : m.get? name = some v) : (m.filter fun entry => entry.1 = name) = [(name, v)] := by
  induction m with
  | nil => cases h
  | cons entry rest ih =>
    obtain ⟨hnot, hrest⟩ := List.nodup_cons.mp hnodup
    rw [get?_cons] at h
    rw [List.filter_cons]
    split at h
    · next heq =>
      cases h
      have hnone : (rest.filter fun other => other.1 = name) = [] := by
        refine List.filter_eq_nil_iff.mpr fun other hother hname => hnot ?_
        exact List.mem_map.mpr ⟨other, hother, (of_decide_eq_true hname).trans heq.symm⟩
      rw [if_pos (decide_eq_true heq), hnone, ← heq]
    · next hne => rw [if_neg (by rwa [decide_eq_true_eq]), ih hrest h]

/-- After a value has been put, the names are the new one and the old ones. -/
theorem mem_names_put {m : Mapping κ α} {name k : κ} {v : α} :
    k ∈ (m.put name v).names ↔ k = name ∨ k ∈ m.names := by
  rw [← isSome_get?_iff, ← isSome_get?_iff, get?_put]
  by_cases h : name = k
  · rw [if_pos h]
    exact iff_of_true rfl (.inl h.symm)
  · rw [if_neg h]
    exact ⟨.inr, fun hor => hor.resolve_left (Ne.symm h)⟩

/-- After values have been put, the names are those of the values and the old ones. -/
theorem mem_names_putAll {m entries : Mapping κ α} {k : κ} :
    k ∈ (m.putAll entries).names ↔ k ∈ entries.names ∨ k ∈ m.names := by
  induction entries generalizing m with
  | nil => exact (or_iff_right List.not_mem_nil).symm
  | cons entry rest ih =>
    have hcons : names (entry :: rest) = entry.1 :: names rest := rfl
    rw [putAll, List.foldl_cons, ← putAll, ih, mem_names_put, hcons, List.mem_cons, or_left_comm,
      or_assoc]

/-- Entries under names that a mapping has leave its names. -/
theorem names_putAll (m : Mapping κ α) {entries : Mapping κ α}
    (h : ∀ entry ∈ entries, entry.1 ∈ m.names) : (m.putAll entries).names = m.names := by
  induction entries generalizing m with
  | nil => rfl
  | cons entry rest ih =>
    obtain ⟨hentry, hrest⟩ := List.forall_mem_cons.mp h
    have hput : (m.put entry.1 entry.2).names = m.names := by rw [names_put, if_pos hentry]
    rw [putAll, List.foldl_cons, ← putAll, ih, hput]
    rw [hput]
    exact hrest

end RelStore.Mapping
