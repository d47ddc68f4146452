import AcornCatalog.OrderedMap
import Mathlib.Data.List.Basic
import Mathlib.Data.List.Induction

/-! Looking names up in a map that was built from entries: whatever is found was entered under the name, and a name is
found, and is among the names of the map, exactly if something was entered under it. -/

namespace AcornCatalog.OrderedMap

variable {α : Type} {key : String} {entries : List (String × α)} {m : OrderedMap α}

theorem get?_insert (m : OrderedMap α) (key other : String) (value : α) :
    (m.insert key value).get? other = if key = other then some value else m.get? other := by
  induction m with
  | nil => rfl
  | cons e m ih =>
    obtain ⟨k, v⟩ := e
    rw [insert]
    split
    · next hk =>
      subst hk
      simp only [get?]
      split <;> rfl
    · next hk =>
      rw [get?, get?, ih]
      split
      · next hother => rw [if_neg fun h => hk (hother.trans h.symm)]
      · rfl

theorem mem_of_get?_insertAll {value : α} (h : (m.insertAll entries).get? key = some value) :
    (key, value) ∈ entries ∨ m.get? key = some value := by
  induction entries generalizing m with
  | nil => exact Or.inr h
  | cons e entries ih =>
    rcases ih h with hmem | hget
    · exact Or.inl (List.mem_cons_of_mem _ hmem)
    · rw [get?_insert] at hget
      split at hget
      · next hk =>
        cases hget
        exact Or.inl (hk ▸ List.mem_cons_self ..)
      · exact Or.inr hget

theorem isSome_get?_insertAll_iff :
    ((m.insertAll entries).get? key).isSome = true ↔ key ∈ entries.map (·.1) ∨ (m.get? key).isSome = true := by
  induction entries generalizing m with
  | nil => simp [insertAll]
  | cons e entries ih =>
    have hnext : m.insertAll (e :: entries) = (m.insert e.1 e.2).insertAll entries := rfl
    rw [hnext, ih, get?_insert, List.map_cons, List.mem_cons]
    by_cases hk : e.1 = key
    · simp [hk]
    · simp [hk, Ne.symm hk]

theorem mem_of_get?_ofEntries {value : α} (h : (ofEntries entries).get? key = some value) : (key, value) ∈ entries := by
  rcases mem_of_get?_insertAll h with hmem | hget
  · exact hmem
  · cases hget

theorem isSome_get?_ofEntries_iff : ((ofEntries entries).get? key).isSome = true ↔ key ∈ entries.map (·.1) := by
  rw [ofEntries, isSome_get?_insertAll_iff]
  exact or_iff_left (by simp [get?])

theorem get?_ofEntries_const (names : List String) (value : α) (key : String) :
    (ofEntries (names.map (·, value))).get? key = if key ∈ names then some value else none := by
  have hkeys : (names.map (·, value)).map (·.1) = names := by simp [Function.comp_def]
  have hsome : ((ofEntries (names.map (·, value))).get? key).isSome = true ↔ key ∈ names := by
    rw [isSome_get?_ofEntries_iff, hkeys]
  cases hget : (ofEntries (names.map (·, value))).get? key with
  | none => rw [if_neg fun h => by simpa [hget] using hsome.mpr h]
  | some v =>
    obtain ⟨name, -, heq⟩ := List.mem_map.mp (mem_of_get?_ofEntries hget)
    cases heq
    rw [if_pos (hsome.mp (by rw [hget]; rfl))]

theorem mem_keys_iff : key ∈ m.map (·.1) ↔ (m.get? key).isSome = true := by
  induction m with
  | nil => simp [get?]
  | cons e m ih =>
    rw [List.map_cons, List.mem_cons, ih, get?]
    split
    · next hk => simp [hk]
    · next hk => exact or_iff_right (Ne.symm hk)

theorem insert_of_not_mem (h : key ∉ m.map (·.1)) (value : α) : m.insert key value = m ++ [(key, value)] := by
  induction m with
  | nil => rfl
  | cons e m ih =>
    obtain ⟨k, v⟩ := e
    simp only [List.map_cons, List.mem_cons, not_or] at h
    rw [insert, if_neg (Ne.symm h.1), ih h.2]
    rfl

/-- Entries under names of their own are kept as they are. -/
theorem insertAll_of_nodup (h : ((m ++ entries).map (·.1)).Nodup) : m.insertAll entries = m ++ entries := by
  induction entries generalizing m with
  | nil => exact (List.append_nil m).symm
  | cons e entries ih =>
    have hnew : e.1 ∉ m.map (·.1) := by
      rw [List.map_append, List.map_cons] at h
      intro hmem
      exact (List.nodup_append.mp h).2.2 e.1 hmem e.1 (List.mem_cons_self ..) rfl
    have hnext : m.insertAll (e :: entries) = (m.insert e.1 e.2).insertAll entries := rfl
    rw [hnext, insert_of_not_mem hnew, ih (by simpa using h), List.append_assoc]
    rfl

theorem ofEntries_of_nodup (h : (entries.map (·.1)).Nodup) : ofEntries entries = entries := insertAll_of_nodup h

theorem keys_insert_of_mem (h : key ∈ m.map (·.1)) (value : α) : (m.insert key value).map (·.1) = m.map (·.1) := by
  induction m with
  | nil => cases h
  | cons e m ih =>
    obtain ⟨k, v⟩ := e
    rw [insert]
    split
    · rfl
    · next hk => rw [List.map_cons, List.map_cons, ih ((List.mem_cons.mp h).resolve_left (Ne.symm hk))]

theorem nodup_keys_insert (h : (m.map (·.1)).Nodup) (key : String) (value : α) :
    ((m.insert key value).map (·.1)).Nodup := by
  by_cases hkey : key ∈ m.map (·.1)
  · rwa [keys_insert_of_mem hkey]
  · rw [insert_of_not_mem hkey, List.map_append, List.nodup_append]
    refine ⟨h, by simp, ?_⟩
    rintro k hk other hother rfl
    rw [List.mem_singleton.mp hother] at hk
    exact hkey hk

/-- Each name has one entry. -/
theorem nodup_keys_ofEntries (entries : List (String × α)) : ((ofEntries entries).map (·.1)).Nodup := by
  have hall : ∀ m : OrderedMap α, (m.map (·.1)).Nodup → ((m.insertAll entries).map (·.1)).Nodup := by
    induction entries with
    | nil => exact fun m h => h
    | cons e entries ih => exact fun m h => ih _ (nodup_keys_insert h e.1 e.2)
  exact hall [] List.nodup_nil

theorem mem_iff_get? {value : α} (h : (m.map (·.1)).Nodup) : (key, value) ∈ m ↔ m.get? key = some value := by
  induction m with
  | nil => simp [get?]
  | cons e m ih =>
    obtain ⟨k, v⟩ := e
    rw [List.map_cons, List.nodup_cons] at h
    rw [List.mem_cons, ih h.2, get?]
    split
    · next hk =>
      subst hk
      have hnone : get? k m ≠ some value := by
        intro hget
        exact h.1 (mem_keys_iff.mpr (Option.isSome_iff_exists.mpr ⟨value, hget⟩))
      rw [or_iff_left hnone, Prod.mk.injEq, eq_self, true_and, Option.some_inj, eq_comm]
    · next hk => simp [Ne.symm hk]

/-- The entries come first, and the map has what they leave open. -/
theorem get?_insertAll (m : OrderedMap α) (entries : List (String × α)) (key : String) :
    (m.insertAll entries).get? key = ((ofEntries entries).get? key).or (m.get? key) := by
  induction entries generalizing m with
  | nil => rfl
  | cons e entries ih =>
    have hnext (m : OrderedMap α) : m.insertAll (e :: entries) = (m.insert e.1 e.2).insertAll entries := rfl
    rw [ofEntries, hnext, hnext, ih, ih (insert e.1 e.2 []), get?_insert, get?_insert, Option.or_assoc]
    by_cases hk : e.1 = key
    · rw [if_pos hk, if_pos hk, Option.some_or]
    · rw [if_neg hk, if_neg hk, get?, Option.none_or]

/-- Of several values under one name the last is found. -/
theorem get?_ofEntries_last (name : α → String) (items : List α) (key : String) :
    (ofEntries (items.map fun i => (name i, i))).get? key = (items.filter (name · == key)).getLast? := by
  induction items using List.reverseRecOn with
  | nil => rfl
  | append_singleton items i ih =>
    have hnext : ofEntries ((items ++ [i]).map fun i => (name i, i)) =
        (ofEntries (items.map fun i => (name i, i))).insert (name i) i := by
      rw [ofEntries, insertAll, List.map_append, List.foldl_append]
      rfl
    rw [hnext, get?_insert, ih, List.filter_append]
    by_cases hi : name i = key
    · simp [hi]
    · simp [hi]

/-! ### Entries that say the same -/

theorem insert_of_get? {value : α} (h : m.get? key = some value) : m.insert key value = m := by
  induction m with
  | nil => cases h
  | cons e m ih =>
    obtain ⟨k, v⟩ := e
    rw [get?] at h
    rw [insert]
    split at h
    · next hk =>
      cases h
      rw [if_pos hk]
    · next hk => rw [if_neg hk, ih h]

/-- A value that a name has need not be entered under it again. -/
theorem insertAll_filter {value : α} (h : m.get? key = some value) (names : List String) :
    m.insertAll ((names.filter (· != key)).map fun name => (name, value)) =
      m.insertAll (names.map fun name => (name, value)) := by
  induction names generalizing m with
  | nil => rfl
  | cons name names ih =>
    by_cases hname : name = key
    · have hsame : m.insert name value = m := insert_of_get? (hname ▸ h)
      have hnext : m.insertAll ((name :: names).map fun name => (name, value)) =
          (m.insert name value).insertAll (names.map fun name => (name, value)) := rfl
      rw [hnext, hsame, List.filter_cons_of_neg (by simp [hname]), ih h]
    · rw [List.filter_cons_of_pos (by simp [hname])]
      exact ih (by rw [get?_insert, if_neg hname, h])

theorem insert_map {β : Type} (f : α → β) (m : OrderedMap α) (key : String) (value : α) :
    (m.insert key value).map (Prod.map id f) = insert key (f value) (m.map (Prod.map id f)) := by
  induction m with
  | nil => rfl
  | cons e m ih =>
    obtain ⟨k, v⟩ := e
    rw [insert, List.map_cons, Prod.map_apply, id, insert]
    split
    · rfl
    · rw [List.map_cons, ih]
      rfl

/-- Values can be changed before or after they are entered. -/
theorem insertAll_map {β : Type} (f : α → β) (entries : List (String × α)) (m : OrderedMap α) :
    insertAll (entries.map (Prod.map id f)) (m.map (Prod.map id f)) = (m.insertAll entries).map (Prod.map id f) := by
  induction entries generalizing m with
  | nil => rfl
  | cons e entries ih =>
    have hnext : m.insertAll (e :: entries) = (m.insert e.1 e.2).insertAll entries := rfl
    rw [hnext, ← ih, insert_map]
    rfl

theorem get?_map {β : Type} (f : α → β) (m : OrderedMap α) (key : String) :
    get? key (m.map (Prod.map id f)) = (m.get? key).map f := by
  induction m with
  | nil => rfl
  | cons e m ih =>
    obtain ⟨k, v⟩ := e
    rw [List.map_cons, Prod.map_apply, id, get?, get?, ih]
    split <;> rfl

/-! ### The order of names -/

theorem keys_insertAll (m : OrderedMap α) (entries : List (String × α)) :
    (m.insertAll entries).map (·.1) =
      m.map (·.1) ++ ((entries.map (·.1)).removeAll (m.map (·.1))).eraseDups := by
  induction entries generalizing m with
  | nil => simp [insertAll, List.removeAll]
  | cons e entries ih =>
    obtain ⟨key, value⟩ := e
    have hnext : m.insertAll ((key, value) :: entries) = (m.insert key value).insertAll entries := rfl
    rw [hnext, ih]
    by_cases hkey : key ∈ m.map (·.1)
    · rw [keys_insert_of_mem hkey, List.map_cons]
      congr 2
      exact (List.filter_cons_of_neg (by simpa using hkey)).symm
    · have hnew : (key :: entries.map (·.1)).removeAll (m.map (·.1)) =
          key :: (entries.map (·.1)).removeAll (m.map (·.1)) := List.filter_cons_of_pos (by simpa using hkey)
      have hrest : (entries.map (·.1)).removeAll (m.map (·.1) ++ [key]) =
          ((entries.map (·.1)).removeAll (m.map (·.1))).filter fun name => !name == key := by
        simp only [List.removeAll, List.filter_filter]
        refine List.filter_congr fun name _ => ?_
        rw [Bool.eq_iff_iff]
        simp only [List.elem_eq_mem, Bool.not_eq_true', decide_eq_false_iff_not, List.mem_append, List.mem_singleton,
          not_or, Bool.and_eq_true, beq_eq_false_iff_ne]
        exact and_comm
      rw [insert_of_not_mem hkey, List.map_append, List.map_cons, List.map_nil, List.map_cons, hnew, hrest,
        List.eraseDups_cons, List.append_assoc]
      rfl

/-- Names come in the order in which they were first entered. -/
theorem keys_ofEntries (entries : List (String × α)) : (ofEntries entries).map (·.1) = (entries.map (·.1)).eraseDups := by
  rw [ofEntries, keys_insertAll]
  simp [List.removeAll]

end AcornCatalog.OrderedMap
