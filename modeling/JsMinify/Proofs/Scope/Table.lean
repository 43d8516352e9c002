import JsMinify.Scope

/-!
# Tables with one entry for each key

Scopes keep their symbols, references and new names in lists of pairs that only `putKey` changes.
`lookup_putKey` says what such a table holds afterwards, `keys_putKey` what its keys are. A table
without repeated keys is determined by its lookups (`lookup_eq_some_iff`).
-/

namespace JsMinify

open List

variable {β : Type} {t : List (String × β)} {k : String} {v : β}

def keys (t : List (String × β)) : List String := t.map (·.1)

@[simp] theorem keys_nil : keys ([] : List (String × β)) = [] := rfl

@[simp] theorem keys_cons (e : String × β) (t : List (String × β)) : keys (e :: t) = e.1 :: keys t := rfl

theorem lookup_cons_eq (k : String) (e : String × β) (t : List (String × β)) :
    (e :: t).lookup k = if k = e.1 then some e.2 else t.lookup k := by
  rw [lookup_cons]
  by_cases h : k = e.1
  · rw [if_pos h, beq_iff_eq.2 h]
  · rw [if_neg h, beq_false_of_ne h]

/-- Setting a key changes what is found for it and for no other key. -/
theorem lookup_putKey (key k : String) (v : β) (t : List (String × β)) :
    (putKey key v t).lookup k = if k = key then some v else t.lookup k := by
  induction t with
  | nil => simp [putKey, lookup_cons_eq]
  | cons e t ih =>
    obtain ⟨a, b⟩ := e
    by_cases h : a = key
    · subst h
      by_cases hk : k = a <;> simp [putKey, lookup_cons_eq, hk]
    · simp only [putKey, if_neg h, lookup_cons_eq, ih]
      by_cases hk : k = a
      · subst hk
        simp [h]
      · simp [hk]

@[simp] theorem lookup_putKey_self (key : String) (v : β) (t : List (String × β)) : (putKey key v t).lookup key = some v := by
  simp [lookup_putKey]

theorem keys_putKey (key : String) (v : β) (t : List (String × β)) :
    keys (putKey key v t) = if key ∈ keys t then keys t else keys t ++ [key] := by
  induction t with
  | nil => simp [putKey]
  | cons e t ih =>
    obtain ⟨a, b⟩ := e
    by_cases h : a = key
    · simp [putKey, h]
    · have h' : key ≠ a := fun e => h e.symm
      by_cases hm : key ∈ keys t <;> simp [putKey, h, h', ih, hm]

theorem nodup_keys_putKey (h : (keys t).Nodup) (key : String) (v : β) : (keys (putKey key v t)).Nodup := by
  rw [keys_putKey]
  split
  · exact h
  · next hm => exact nodup_append.2 ⟨h, by simp, by rintro a ha b hb rfl; simp_all⟩

theorem lookup_isSome_iff : (t.lookup k).isSome ↔ k ∈ keys t := by
  induction t with
  | nil => simp
  | cons e t ih =>
    rw [lookup_cons_eq, keys_cons, mem_cons]
    by_cases h : k = e.1
    · simp [h]
    · simp [h, ih]

theorem mem_of_lookup (h : t.lookup k = some v) : (k, v) ∈ t := by
  induction t with
  | nil => simp at h
  | cons e t ih =>
    obtain ⟨a, b⟩ := e
    rw [lookup_cons_eq] at h
    by_cases hk : k = a
    · subst hk
      simp at h
      simp [h]
    · simp only [if_neg hk] at h
      exact mem_cons_of_mem _ (ih h)

/-- In a table without repeated keys an entry is what its key finds. -/
theorem lookup_eq_some_iff (hn : (keys t).Nodup) : t.lookup k = some v ↔ (k, v) ∈ t := by
  refine ⟨mem_of_lookup, fun h => ?_⟩
  induction t with
  | nil => simp at h
  | cons e t ih =>
    obtain ⟨a, b⟩ := e
    obtain ⟨ha, ht⟩ := nodup_cons.1 hn
    rw [lookup_cons_eq]
    rcases mem_cons.1 h with he | hm
    · obtain ⟨rfl, rfl⟩ := Prod.mk.injEq .. ▸ he
      simp
    · have hk : k ≠ a := by
        intro e
        exact ha (e ▸ mem_map.2 ⟨(k, v), hm, rfl⟩)
      simp [hk, ih ht hm]

end JsMinify
