import DesignTokens.OrderedMap

/-! # Overlaying ordered maps

An ordered map is determined by the order of its keys and by its values. Overlaying keeps the keys
of the lower map in their places, and every value comes from the upper map that has it. -/
namespace DesignTokens.OrderedMap
variable {α : Type}

theorem lookup_put (key : String) (value : α) (es : List (String × α)) (k : String) :
    (put key value es).lookup k = if k = key then some value else es.lookup k := by
  induction es with
  | nil =>
    by_cases hk : k = key
    · simp [put, hk]
    · simp [put, hk, List.lookup_cons, beq_false_of_ne hk]
  | cons e es ih =>
    obtain ⟨j, v⟩ := e
    simp only [put]
    by_cases hj : j = key
    · subst hj
      rw [if_pos rfl]
      by_cases hk : k = j
      · simp [hk]
      · simp [hk, List.lookup_cons, beq_false_of_ne hk]
    · rw [if_neg hj, List.lookup_cons, List.lookup_cons, ih]
      by_cases hk : k = j
      · subst hk
        simp [hj]
      · simp [beq_false_of_ne hk]

/-- A new key goes to the end. -/
theorem put_of_not_mem {key : String} {es : List (String × α)} (h : key ∉ es.map Prod.fst)
    (value : α) : put key value es = es ++ [(key, value)] := by
  induction es with
  | nil => rfl
  | cons e es ih =>
    obtain ⟨k, v⟩ := e
    rw [List.map_cons, List.mem_cons, not_or] at h
    rw [put, if_neg (Ne.symm h.1), ih h.2, List.cons_append]

theorem eq_or_mem_of_mem_put {key : String} {value : α} {es : List (String × α)} {e : String × α}
    (h : e ∈ put key value es) : e = (key, value) ∨ e ∈ es := by
  induction es with
  | nil => exact .inl (List.mem_singleton.1 h)
  | cons e' es ih =>
    rw [put] at h
    split at h
    · rename_i hk
      rcases List.mem_cons.1 h with rfl | h
      · exact .inl (by rw [hk])
      · exact .inr (List.mem_cons_of_mem _ h)
    · rcases List.mem_cons.1 h with rfl | h
      · exact .inr List.mem_cons_self
      · exact (ih h).imp_right (List.mem_cons_of_mem _)

/-- Of distinct keys none was there before. -/
theorem not_mem_of_nodup_append_cons {before rest : List (String × α)} {key : String} {value : α}
    (h : ((before ++ (key, value) :: rest).map Prod.fst).Nodup) : key ∉ before.map Prod.fst := by
  rw [List.map_append, List.map_cons] at h
  intro hk
  exact (List.nodup_append.1 h).2.2 key hk key List.mem_cons_self rfl

theorem isSome_lookup_iff (es : List (String × α)) (k : String) :
    (es.lookup k).isSome ↔ k ∈ es.map Prod.fst := by
  rw [List.lookup_isSome_iff, List.mem_map]
  simp only [beq_iff_eq, @eq_comm _ k]

theorem lookup_eq_none {es : List (String × α)} {k : String} (h : k ∉ es.map Prod.fst) :
    es.lookup k = none := by
  rw [← isSome_lookup_iff] at h
  exact Option.not_isSome_iff_eq_none.1 h

/-- Entries are determined by their keys and by what is looked up in them. -/
theorem entries_eq {es es' : List (String × α)} (hn : (es.map Prod.fst).Nodup)
    (hk : es.map Prod.fst = es'.map Prod.fst) (hl : ∀ k, es.lookup k = es'.lookup k) :
    es = es' := by
  induction es generalizing es' with
  | nil => exact (List.map_eq_nil_iff.1 hk.symm).symm
  | cons e es ih =>
    obtain ⟨k, v⟩ := e
    cases es' with
    | nil => cases hk
    | cons e' es' =>
      obtain ⟨k', v'⟩ := e'
      obtain ⟨rfl, htail⟩ : k = k' ∧ es.map Prod.fst = es'.map Prod.fst := by
        simpa using hk
      have hv : v = v' := by simpa using hl k
      have hnot : k ∉ es.map Prod.fst := (List.nodup_cons.1 hn).1
      have hrest : es = es' := by
        apply ih (List.nodup_cons.1 hn).2 htail
        intro j
        by_cases hj : j = k
        · rw [hj, lookup_eq_none hnot, lookup_eq_none (htail ▸ hnot)]
        · have := hl j
          simpa [List.lookup_cons, beq_false_of_ne hj] using this
      rw [hv, hrest]

theorem keys_empty : (empty : OrderedMap α).keys = [] := rfl

theorem get?_empty (k : String) : (empty : OrderedMap α).get? k = none := rfl

theorem keys_insert (m : OrderedMap α) (key : String) (value : α) :
    (m.insert key value).keys = if key ∈ m.keys then m.keys else m.keys ++ [key] :=
  keys_put key value m.entries

theorem get?_insert (m : OrderedMap α) (key : String) (value : α) (k : String) :
    (m.insert key value).get? k = if k = key then some value else m.get? k :=
  lookup_put key value m.entries k

theorem contains_iff (m : OrderedMap α) (key : String) :
    m.contains key = true ↔ key ∈ m.keys :=
  isSome_lookup_iff m.entries key

theorem ext_entries {m m' : OrderedMap α} (h : m.entries = m'.entries) : m = m' := by
  obtain ⟨es, hn⟩ := m
  obtain ⟨es', hn'⟩ := m'
  obtain rfl : es = es' := h
  rfl

/-- A map is determined by the order of its keys and by its values. -/
theorem ext_get? {m m' : OrderedMap α} (hk : m.keys = m'.keys) (hg : ∀ k, m.get? k = m'.get? k) :
    m = m' :=
  ext_entries (entries_eq m.keys_nodup hk hg)

theorem insertAll_cons (m : OrderedMap α) (pair : String × α) (pairs : List (String × α)) :
    m.insertAll (pair :: pairs) = (m.insert pair.1 pair.2).insertAll pairs := rfl

theorem keys_insertAll (m : OrderedMap α) {pairs : List (String × α)}
    (hn : (pairs.map Prod.fst).Nodup) :
    (m.insertAll pairs).keys =
      m.keys ++ (pairs.map Prod.fst).filter fun k => k ∉ m.keys := by
  induction pairs generalizing m with
  | nil => simp [insertAll]
  | cons pair pairs ih =>
    obtain ⟨k, v⟩ := pair
    obtain ⟨hk, hrest⟩ := List.nodup_cons.1 hn
    rw [insertAll_cons, ih _ hrest, keys_insert]
    by_cases hm : k ∈ m.keys
    · simp [hm]
    · have hsame : (pairs.map Prod.fst).filter (fun j => j ∉ m.keys ++ [k]) =
          (pairs.map Prod.fst).filter fun j => j ∉ m.keys := by
        apply List.filter_congr
        intro j hj
        have : j ≠ k := fun h => hk (h ▸ hj)
        simp [this]
      rw [if_neg hm, hsame]
      simp [hm]

theorem get?_insertAll (m : OrderedMap α) {pairs : List (String × α)}
    (hn : (pairs.map Prod.fst).Nodup) (k : String) :
    (m.insertAll pairs).get? k = (pairs.lookup k).or (m.get? k) := by
  induction pairs generalizing m with
  | nil => simp [insertAll]
  | cons pair pairs ih =>
    obtain ⟨j, v⟩ := pair
    obtain ⟨hj, hrest⟩ := List.nodup_cons.1 hn
    rw [insertAll_cons, ih _ hrest, get?_insert, List.lookup_cons]
    by_cases hk : k = j
    · subst hk
      simp [lookup_eq_none hj]
    · simp [hk, beq_false_of_ne hk]

/-- The keys of the lower map come first, and then those that only the upper one has. -/
theorem keys_overlay (m other : OrderedMap α) :
    (m.overlay other).keys = m.keys ++ other.keys.filter fun k => k ∉ m.keys :=
  keys_insertAll m other.keys_nodup

/-- The upper map wins. -/
theorem get?_overlay (m other : OrderedMap α) (k : String) :
    (m.overlay other).get? k = (other.get? k).or (m.get? k) :=
  get?_insertAll m other.keys_nodup k

theorem mem_keys_overlay (m other : OrderedMap α) (k : String) :
    k ∈ (m.overlay other).keys ↔ k ∈ m.keys ∨ k ∈ other.keys := by
  rw [keys_overlay, List.mem_append, List.mem_filter]
  by_cases h : k ∈ m.keys <;> simp [h]

theorem overlay_empty (m : OrderedMap α) : m.overlay empty = m := rfl

theorem empty_overlay (m : OrderedMap α) : empty.overlay m = m := by
  apply ext_get?
  · rw [keys_overlay, keys_empty]
    simp
  · intro k
    rw [get?_overlay, get?_empty, Option.or_none]

theorem overlay_assoc (a b c : OrderedMap α) :
    (a.overlay b).overlay c = a.overlay (b.overlay c) := by
  apply ext_get?
  · have hlast : c.keys.filter (fun k => k ∉ (a.overlay b).keys) =
        (c.keys.filter fun k => k ∉ b.keys).filter fun k => k ∉ a.keys := by
      rw [List.filter_filter]
      apply List.filter_congr
      intro k hk
      simp [mem_keys_overlay]
    rw [keys_overlay, hlast, keys_overlay, keys_overlay, keys_overlay, List.filter_append,
      List.append_assoc]
  · intro k
    rw [get?_overlay, get?_overlay, get?_overlay, get?_overlay, Option.or_assoc]

theorem foldl_overlay (ms : List (OrderedMap α)) (m : OrderedMap α) :
    ms.foldl overlay m = m.overlay (ms.foldl overlay empty) := by
  induction ms generalizing m with
  | nil => rw [List.foldl_nil, List.foldl_nil, overlay_empty]
  | cons m' ms ih => rw [List.foldl_cons, List.foldl_cons, ih, ih (empty.overlay m'),
      empty_overlay, overlay_assoc]

end DesignTokens.OrderedMap
