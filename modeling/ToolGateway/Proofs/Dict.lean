import ToolGateway.Dict

/-!
# Look-ups in ordered dictionaries

A dictionary is known by its look-ups. Setting a key changes what is found under that key and under
no other (`get?_insert`), and it repeats no key. In a dictionary that repeats no key the entries are
exactly what is found (`get?_eq_some_iff`), and removing a key leaves the rest to be found as it
was, also when the last entry moves into the gap (`get?_swapErase`).
-/

namespace ToolGateway.Dict

variable {α : Type} {k key : String} {v : α} {es : List (String × α)}

/-! ### Entries -/

theorem mem_of_lookup (h : lookup key es = some v) : (key, v) ∈ es := by
  induction es with
  | nil => cases h
  | cons e es ih =>
    obtain ⟨k, w⟩ := e
    rw [lookup] at h
    split at h
    · next hk =>
      cases h
      rw [hk]
      exact List.mem_cons_self
    · exact List.mem_cons_of_mem _ (ih h)

theorem lookup_eq_none_iff : lookup key es = none ↔ key ∉ es.map (·.1) := by
  induction es with
  | nil => simp [lookup]
  | cons e es ih =>
    obtain ⟨k, w⟩ := e
    by_cases h : k = key
    · simp [lookup, h]
    · simp [lookup, h, Ne.symm h, ih]

/-- Without repeated keys every entry is the first one of its key. -/
theorem lookup_of_mem (hn : (es.map (·.1)).Nodup) (h : (key, v) ∈ es) : lookup key es = some v := by
  induction es with
  | nil => cases h
  | cons e es ih =>
    obtain ⟨k, w⟩ := e
    rw [List.map_cons, List.nodup_cons] at hn
    rcases List.mem_cons.mp h with h | h
    · cases h
      exact if_pos rfl
    · have hk : k ≠ key := by
        rintro rfl
        exact hn.1 (List.mem_map.mpr ⟨_, h, rfl⟩)
      rw [lookup, if_neg hk]
      exact ih hn.2 h

/-! ### Setting a key -/

theorem lookup_put : lookup key (put k v es) = if k = key then some v else lookup key es := by
  induction es with
  | nil => rfl
  | cons e es ih =>
    obtain ⟨l, w⟩ := e
    rw [put]
    split
    · next hl =>
      subst hl
      rw [lookup, lookup]
      split <;> rfl
    · next hl =>
      rw [lookup, lookup, ih]
      by_cases hk : k = key
      · subst hk
        rw [if_neg hl, if_pos rfl, if_pos rfl]
      · rw [if_neg hk, if_neg hk]

/-- Only the value that was put in last is left. -/
theorem put_put {w : α} : put k w (put k v es) = put k w es := by
  induction es with
  | nil => exact if_pos rfl
  | cons e es ih =>
    obtain ⟨l, u⟩ := e
    by_cases hl : l = k
    · simp only [put, if_pos hl]
    · simp only [put, if_neg hl, ih]

theorem lookup_put_of_ne (h : k ≠ key) : lookup key (put k v es) = lookup key es := by
  rw [lookup_put, if_neg h]

theorem mem_put {m : String × α} (h : m ∈ put k v es) : m = (k, v) ∨ m ∈ es := by
  induction es with
  | nil => exact Or.inl (List.mem_singleton.mp h)
  | cons e es ih =>
    obtain ⟨l, w⟩ := e
    rw [put] at h
    split at h
    · next hl =>
      rw [hl] at h
      rcases List.mem_cons.mp h with h | h
      · exact Or.inl h
      · exact Or.inr (List.mem_cons_of_mem _ h)
    · rcases List.mem_cons.mp h with h | h
      · exact Or.inr (h ▸ List.mem_cons_self)
      · exact (ih h).imp_right (List.mem_cons_of_mem _)

theorem nodup_keys_put (h : (es.map (·.1)).Nodup) : ((put k v es).map (·.1)).Nodup := by
  induction es with
  | nil => simp [put]
  | cons e es ih =>
    obtain ⟨l, w⟩ := e
    rw [put]
    split
    · next hl =>
      subst hl
      exact h
    · next hl =>
      rw [List.map_cons, List.nodup_cons] at h ⊢
      refine ⟨?_, ih h.2⟩
      rw [← lookup_eq_none_iff, lookup_put, if_neg (Ne.symm hl)]
      exact lookup_eq_none_iff.mpr h.1

/-- A key that is present keeps its place, and a new one comes last. -/
theorem keys_put :
    (put k v es).map (·.1) =
      if k ∈ es.map (·.1) then es.map (·.1) else es.map (·.1) ++ [k] := by
  induction es with
  | nil => rfl
  | cons e es ih =>
    obtain ⟨l, w⟩ := e
    rw [put]
    by_cases hl : l = k
    · simp [hl]
    · rw [if_neg hl, List.map_cons, ih]
      by_cases mem : k ∈ es.map (·.1) <;> simp [mem, Ne.symm hl]

/-! ### Removing a key -/

/-- Without repeated keys the entries of the other keys are left. -/
theorem drop_eq_filter (hn : (es.map (·.1)).Nodup) : drop k es = es.filter (·.1 != k) := by
  induction es with
  | nil => rfl
  | cons e es ih =>
    obtain ⟨l, w⟩ := e
    rw [List.map_cons, List.nodup_cons] at hn
    rw [drop]
    split
    · next hl =>
      subst hl
      rw [List.filter_cons_of_neg (by simp), List.filter_eq_self.mpr]
      intro m hm
      rw [bne_iff_ne]
      intro hl
      exact hn.1 (List.mem_map.mpr ⟨m, hm, hl⟩)
    · next hl =>
      rw [List.filter_cons_of_pos (by simpa using hl), ih hn.2]

/-! ### Putting an entry into the place of another one -/

theorem lookup_putAt_self :
    lookup key (putAt k (k, v) es) =
      if k = key ∧ k ∈ es.map (·.1) then some v else lookup key es := by
  induction es with
  | nil => simp [putAt]
  | cons e es ih =>
    obtain ⟨l, w⟩ := e
    rw [putAt]
    by_cases hl : l = k
    · subst hl
      by_cases hk : l = key <;> simp [lookup, hk]
    · rw [if_neg hl, lookup, lookup, ih]
      by_cases hk : k = key
      · subst hk
        simp only [if_neg hl, List.map_cons, List.mem_cons, Ne.symm hl, false_or]
      · simp [hk]

theorem keys_putAt_self : (putAt k (k, v) es).map (·.1) = es.map (·.1) := by
  induction es with
  | nil => rfl
  | cons e es ih =>
    obtain ⟨l, w⟩ := e
    rw [putAt]
    split
    · next hl => simp [hl]
    · simp [ih]

theorem putAt_of_lookup (h : lookup k es = some v) : putAt k (k, v) es = es := by
  induction es with
  | nil => rfl
  | cons e es ih =>
    obtain ⟨l, w⟩ := e
    rw [lookup] at h
    rw [putAt]
    split
    · next hl =>
      rw [if_pos hl] at h
      cases h
      rw [hl]
    · next hl =>
      rw [if_neg hl] at h
      rw [ih h]

theorem putAt_putAt {w : α} : putAt k (k, w) (putAt k (k, v) es) = putAt k (k, w) es := by
  induction es with
  | nil => rfl
  | cons e es ih =>
    obtain ⟨l, u⟩ := e
    rw [putAt, putAt]
    split
    · rw [putAt, if_pos rfl]
    · next hl => rw [putAt, if_neg hl, ih]

theorem putAt_append_cons {e : String × α} {rest : List (String × α)}
    (fresh : k ∉ es.map (·.1)) : putAt k e (es ++ (k, v) :: rest) = es ++ e :: rest := by
  induction es with
  | nil => exact if_pos rfl
  | cons f es ih =>
    obtain ⟨l, w⟩ := f
    simp only [List.map_cons, List.mem_cons, not_or] at fresh
    rw [List.cons_append, putAt, if_neg (Ne.symm fresh.1), ih fresh.2]
    rfl

theorem mem_putAt {m e : String × α} (h : m ∈ putAt k e es) : m = e ∨ m ∈ es := by
  induction es with
  | nil => cases h
  | cons f es ih =>
    obtain ⟨l, w⟩ := f
    rw [putAt] at h
    split at h
    · exact (List.mem_cons.mp h).imp_right (List.mem_cons_of_mem _)
    · rcases List.mem_cons.mp h with h | h
      · exact Or.inr (h ▸ List.mem_cons_self)
      · exact (ih h).imp_right (List.mem_cons_of_mem _)

/-- Where a key is given up for a new one, nothing is found under it any more. -/
theorem lookup_putAt_of_fresh {e : String × α} (hn : (es.map (·.1)).Nodup)
    (fresh : e.1 ∉ es.map (·.1)) (mem : k ∈ es.map (·.1)) :
    lookup key (putAt k e es) =
      if e.1 = key then some e.2 else if k = key then none else lookup key es := by
  induction es with
  | nil => cases mem
  | cons f es ih =>
    obtain ⟨l, w⟩ := f
    rw [List.map_cons, List.nodup_cons] at hn
    simp only [List.map_cons, List.mem_cons, not_or] at fresh mem
    rw [putAt]
    by_cases hl : l = k
    · subst hl
      rw [if_pos rfl, lookup, lookup]
      by_cases hk : l = key
      · subst hk
        simp only [if_true, lookup_eq_none_iff.mpr hn.1]
      · simp only [if_neg hk]
    · rw [if_neg hl, lookup, lookup, ih hn.2 fresh.2 (mem.resolve_left (Ne.symm hl))]
      by_cases hk : l = key
      · subst hk
        simp [fresh.1, Ne.symm hl]
      · simp only [if_neg hk]

theorem nodup_keys_putAt {e : String × α} (hn : (es.map (·.1)).Nodup)
    (fresh : e.1 ∉ es.map (·.1)) : ((putAt k e es).map (·.1)).Nodup := by
  induction es with
  | nil => exact .nil
  | cons f es ih =>
    obtain ⟨l, w⟩ := f
    rw [List.map_cons, List.nodup_cons] at hn
    simp only [List.map_cons, List.mem_cons, not_or] at fresh
    rw [putAt]
    split
    · exact List.nodup_cons.mpr ⟨fresh.2, hn.2⟩
    · refine List.nodup_cons.mpr ⟨?_, ih hn.2 fresh.2⟩
      intro mem
      obtain ⟨m, hm, hl⟩ := List.mem_map.mp mem
      rcases mem_putAt hm with rfl | hm
      · exact fresh.1 hl
      · exact hn.1 (List.mem_map.mpr ⟨m, hm, hl⟩)

/-! ### Dictionaries -/

variable {d : Dict α}

@[simp] theorem get?_empty : (empty : Dict α).get? key = none := rfl

@[simp] theorem get?_insert : (d.insert k v).get? key = if k = key then some v else d.get? key :=
  lookup_put

theorem insert_insert {w : α} : (d.insert k v).insert k w = d.insert k w :=
  congrArg Dict.mk put_put

theorem mem_keys_iff : key ∈ d.keys ↔ d.contains key = true := by
  rw [contains, ← Option.ne_none_iff_isSome, Ne, get?, lookup_eq_none_iff, keys, Decidable.not_not]

theorem contains_of_get? (h : d.get? key = some v) : d.contains key = true := by
  rw [contains, h]
  rfl

theorem get?_eq_some_iff (hn : d.keys.Nodup) : d.get? key = some v ↔ (key, v) ∈ d.entries :=
  ⟨mem_of_lookup, lookup_of_mem hn⟩

theorem nodup_keys_insert (hn : d.keys.Nodup) : (d.insert k v).keys.Nodup := nodup_keys_put hn

theorem keys_insert : (d.insert k v).keys = if k ∈ d.keys then d.keys else d.keys ++ [k] :=
  keys_put

theorem keys_erase (hn : d.keys.Nodup) : (d.erase k).keys = d.keys.filter (· != k) := by
  rw [keys, erase, drop_eq_filter hn, keys, List.filter_map]
  rfl

theorem nodup_keys_erase (hn : d.keys.Nodup) : (d.erase k).keys.Nodup := by
  rw [keys_erase hn]
  exact hn.filter _

theorem contains_eq_false_iff : d.contains key = false ↔ d.get? key = none := by
  rw [contains, Option.isSome_eq_false_iff, Option.isNone_iff_eq_none]

/-! ### Replacing and removing -/

theorem get?_replace : (d.replace k v).get? key =
    if k = key ∧ d.contains k = true then some v else d.get? key := by
  simp only [← mem_keys_iff]
  exact lookup_putAt_self

theorem get?_replace_of_ne (h : k ≠ key) : (d.replace k v).get? key = d.get? key := by
  rw [get?_replace, if_neg fun both => h both.1]

theorem get?_replace_self (h : d.contains k = true) : (d.replace k v).get? k = some v := by
  rw [get?_replace, if_pos ⟨rfl, h⟩]

/-- Nothing is put under a key that is not there. -/
theorem get?_replace_of_get?_eq_none (h : d.get? key = none) :
    (d.replace k v).get? key = none := by
  rw [get?_replace, h, if_neg]
  rintro ⟨rfl, has⟩
  rw [contains_eq_false_iff.mpr h] at has
  cases has

@[simp] theorem keys_replace : (d.replace k v).keys = d.keys := keys_putAt_self

/-- Replacing what is found under a key by itself changes nothing. -/
theorem replace_of_get? (h : d.get? k = some v) : d.replace k v = d := by
  obtain ⟨es⟩ := d
  exact congrArg Dict.mk (putAt_of_lookup h)

theorem replace_replace {w : α} : (d.replace k v).replace k w = d.replace k w :=
  congrArg Dict.mk putAt_putAt

/-- How a key is removed from entries of which one is the last. -/
theorem swapErase_append {last : String × α} :
    (⟨es ++ [last]⟩ : Dict α).swapErase k =
      if last.1 = k then ⟨es⟩ else ⟨if k ∈ es.map (·.1) then putAt k last es else es ++ [last]⟩ := by
  rw [swapErase]
  simp only [List.getLast?_concat, List.dropLast_concat, ← mem_keys_iff, keys, List.map_append,
    List.mem_append, List.map_singleton, List.mem_singleton]
  by_cases hl : last.1 = k
  · simp [hl]
  · by_cases hk : k ∈ es.map (·.1)
    · simp [hl, hk]
    · simp [hl, hk, Ne.symm hl]

/-- Entries repeat no key when those before the last one do not and none of them has its key. -/
theorem nodup_keys_append {last : String × α} : (⟨es ++ [last]⟩ : Dict α).keys.Nodup ↔
    (es.map (·.1)).Nodup ∧ last.1 ∉ es.map (·.1) := by
  rw [keys, List.map_append, List.map_singleton, List.nodup_append]
  constructor
  · rintro ⟨nodup, -, apart⟩
    exact ⟨nodup, fun mem => apart _ mem _ List.mem_cons_self rfl⟩
  · rintro ⟨nodup, fresh⟩
    refine ⟨nodup, List.pairwise_singleton _ _, ?_⟩
    rintro key mem _ hlast rfl
    exact fresh (List.mem_singleton.mp hlast ▸ mem)

theorem lookup_append {last : String × α} (fresh : last.1 ∉ es.map (·.1)) :
    lookup key (es ++ [last]) = if last.1 = key then some last.2 else lookup key es := by
  induction es with
  | nil => rfl
  | cons e es ih =>
    obtain ⟨l, w⟩ := e
    simp only [List.map_cons, List.mem_cons, not_or] at fresh
    rw [List.cons_append, lookup, lookup, ih fresh.2]
    by_cases hl : l = key
    · subst hl
      rw [if_pos rfl, if_pos rfl, if_neg fresh.1]
    · rw [if_neg hl, if_neg hl]

/-- Removing a key leaves everything else to be found as it was. -/
theorem get?_swapErase (hn : d.keys.Nodup) :
    (d.swapErase k).get? key = if k = key then none else d.get? key := by
  obtain ⟨es⟩ := d
  rcases List.eq_nil_or_concat es with rfl | ⟨es, last, rfl⟩
  · exact (ite_self _).symm
  rw [List.concat_eq_append] at hn ⊢
  obtain ⟨nodup, fresh⟩ := nodup_keys_append.mp hn
  rw [swapErase_append, get?, get?, lookup_append fresh]
  by_cases hl : last.1 = k
  · subst hl
    rw [if_pos rfl]
    by_cases hk : last.1 = key
    · subst hk
      rw [if_pos rfl]
      exact lookup_eq_none_iff.mpr fresh
    · rw [if_neg hk, if_neg hk]
  · rw [if_neg hl]
    -- The key under which the last entry is found is not the one that is removed.
    have last_ne : k = key → ¬last.1 = key := fun hk hlast => hl (hlast.trans hk.symm)
    by_cases mem : k ∈ es.map (·.1)
    · simp only [if_pos mem, lookup_putAt_of_fresh nodup fresh mem]
      by_cases hk : k = key
      · rw [if_neg (last_ne hk), if_pos hk, if_pos hk]
      · rw [if_neg hk, if_neg hk]
    · simp only [if_neg mem, lookup_append fresh]
      by_cases hk : k = key
      · rw [if_neg (last_ne hk), if_pos hk, ← hk]
        exact lookup_eq_none_iff.mpr mem
      · rw [if_neg hk]

theorem get?_swapErase_self (hn : d.keys.Nodup) : (d.swapErase k).get? k = none := by
  rw [get?_swapErase hn, if_pos rfl]

theorem get?_swapErase_of_ne (hn : d.keys.Nodup) (h : k ≠ key) :
    (d.swapErase k).get? key = d.get? key := by
  rw [get?_swapErase hn, if_neg h]

/-- Removing a key that is not there changes nothing. -/
theorem swapErase_of_contains_eq_false (h : d.contains k = false) : d.swapErase k = d := by
  unfold swapErase
  split
  · rfl
  · next last there =>
    have ne : last.1 ≠ k := by
      rintro rfl
      have mem : last.1 ∈ d.keys := List.mem_map_of_mem (List.mem_of_getLast? there)
      rw [mem_keys_iff, h] at mem
      cases mem
    rw [if_neg ne, h]
    rfl

theorem nodup_keys_swapErase (hn : d.keys.Nodup) : (d.swapErase k).keys.Nodup := by
  obtain ⟨es⟩ := d
  rcases List.eq_nil_or_concat es with rfl | ⟨es, last, rfl⟩
  · exact .nil
  rw [List.concat_eq_append] at hn ⊢
  obtain ⟨nodup, fresh⟩ := nodup_keys_append.mp hn
  rw [swapErase_append]
  split
  · exact nodup
  · split
    · exact nodup_keys_putAt nodup fresh
    · exact hn

/-- Removing a key leaves the other keys, in some order. -/
theorem keys_swapErase_perm (hn : d.keys.Nodup) :
    (d.swapErase k).keys.Perm (d.keys.filter (· != k)) := by
  refine (List.perm_ext_iff_of_nodup (nodup_keys_swapErase hn) (hn.filter _)).mpr fun key => ?_
  rw [List.mem_filter, mem_keys_iff, mem_keys_iff, contains, contains, get?_swapErase hn,
    bne_iff_ne]
  by_cases hk : k = key
  · simp [hk]
  · simp [hk, Ne.symm hk]

theorem mem_of_mem_swapErase {m : String × α} (h : m ∈ (d.swapErase k).entries) :
    m ∈ d.entries := by
  obtain ⟨es⟩ := d
  rcases List.eq_nil_or_concat es with rfl | ⟨es, last, rfl⟩
  · cases h
  rw [List.concat_eq_append] at h ⊢
  rw [swapErase_append] at h
  split at h
  · exact List.mem_append_left _ h
  · split at h
    · rcases mem_putAt h with rfl | h
      · exact List.mem_append_right _ List.mem_cons_self
      · exact List.mem_append_left _ h
    · exact h

theorem isEmpty_iff : d.isEmpty = true ↔ d.entries = [] := List.isEmpty_iff

theorem contains_foldl_insert :
    (es.foldl (fun d e => d.insert e.1 e.2) d).contains key = true ↔
      key ∈ es.map (·.1) ∨ d.contains key = true := by
  induction es generalizing d with
  | nil => simp
  | cons e es ih =>
    rw [List.foldl_cons, ih, List.map_cons, List.mem_cons, contains, contains, get?_insert]
    by_cases h : e.1 = key
    · simp [h]
    · simp [h, Ne.symm h]

/-- The keys of a dictionary are those of the entries that it is built from. -/
theorem contains_ofList : (ofList es).contains key = true ↔ key ∈ es.map (·.1) := by
  rw [ofList]
  refine contains_foldl_insert.trans ?_
  simp [contains]

theorem isEmpty_ofList : (ofList es).isEmpty = true ↔ es = [] := by
  rw [isEmpty_iff]
  constructor
  · intro h
    cases es with
    | nil => rfl
    | cons e es =>
      have : (ofList (e :: es)).contains e.1 = true := contains_ofList.mpr (by simp)
      rw [contains, get?, h] at this
      cases this
  · rintro rfl
    rfl

/-! ### Dictionaries built from entries -/

theorem nodup_keys_ofList : (ofList es).keys.Nodup := by
  have kept (d : Dict α) (h : d.keys.Nodup) :
      (es.foldl (fun d e => d.insert e.1 e.2) d).keys.Nodup := by
    induction es generalizing d with
    | nil => exact h
    | cons e es ih => exact ih _ (nodup_keys_insert h)
  exact kept empty List.nodup_nil

theorem get?_foldl_insert_of_notMem (fresh : key ∉ es.map (·.1)) :
    (es.foldl (fun d e => d.insert e.1 e.2) d).get? key = d.get? key := by
  induction es generalizing d with
  | nil => rfl
  | cons e es ih =>
    obtain ⟨other, later⟩ := not_or.mp fun m => fresh (List.mem_cons.mpr m)
    rw [List.foldl_cons, ih later, get?_insert, if_neg (Ne.symm other)]

theorem mem_or_of_get?_foldl_insert
    (h : (es.foldl (fun d e => d.insert e.1 e.2) d).get? key = some v) :
    (key, v) ∈ es ∨ d.get? key = some v := by
  induction es generalizing d with
  | nil => exact Or.inr h
  | cons e es ih =>
    rcases ih h with mem | found
    · exact Or.inl (List.mem_cons_of_mem e mem)
    · rw [get?_insert] at found
      split at found
      · next same =>
        cases found
        exact Or.inl (same ▸ List.mem_cons_self)
      · exact Or.inr found

/-- What is found was among the entries. -/
theorem mem_of_get?_ofList (h : (ofList es).get? key = some v) : (key, v) ∈ es :=
  (mem_or_of_get?_foldl_insert h).resolve_right nofun

/-- A key that is repeated keeps the value of its last entry. -/
theorem get?_ofList_append_cons {after : List (String × α)} (last : key ∉ after.map (·.1)) :
    (ofList (es ++ (key, v) :: after)).get? key = some v := by
  rw [ofList, List.foldl_append, List.foldl_cons]
  refine (get?_foldl_insert_of_notMem last).trans ?_
  rw [get?_insert, if_pos rfl]

end ToolGateway.Dict
