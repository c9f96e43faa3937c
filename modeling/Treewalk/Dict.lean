/-
  Finite maps from names.

  A `Dict` holds its entries in the order in which the names were first put
  in, each name once; that no name stands twice is part of the type.

  * `Dict.get?` looks a name up, `Dict.insert` puts an entry in, in place of
    an earlier entry of the same name;
  * `get?_insert` says what a look-up after an insertion gives.
-/

namespace Treewalk

/-- A finite map from names, in order of first insertion. -/
structure Dict (α : Type) where
  entries : List (String × α)
  nodup : (entries.map Prod.fst).Nodup

namespace Dict

variable {α : Type}

/-- Put `(k, v)` in place of the entry of the same name, or at the end. -/
def put (k : String) (v : α) : List (String × α) → List (String × α)
  | [] => [(k, v)]
  | (k', v') :: rest => if k' = k then (k, v) :: rest else (k', v') :: put k v rest

/-- The value of the entry of the name `x`. -/
def find? (x : String) : List (String × α) → Option α
  | [] => none
  | (k, v) :: rest => if k = x then some v else find? x rest

theorem mem_keys_put {k x : String} {v : α} {l : List (String × α)} :
    x ∈ (put k v l).map Prod.fst ↔ x = k ∨ x ∈ l.map Prod.fst := by
  induction l with
  | nil => simp [put]
  | cons e rest ih =>
    obtain ⟨k', v'⟩ := e
    by_cases h : k' = k
    · subst h
      simp [put]
    · simp only [put, if_neg h, List.map_cons, List.mem_cons, ih]
      constructor
      · rintro (hx | hx | hx)
        · exact .inr (.inl hx)
        · exact .inl hx
        · exact .inr (.inr hx)
      · rintro (hx | hx | hx)
        · exact .inr (.inl hx)
        · exact .inl hx
        · exact .inr (.inr hx)

theorem nodup_keys_put {k : String} {v : α} {l : List (String × α)}
    (h : (l.map Prod.fst).Nodup) : ((put k v l).map Prod.fst).Nodup := by
  induction l with
  | nil => simp [put]
  | cons e rest ih =>
    obtain ⟨k', v'⟩ := e
    rw [List.map_cons, List.nodup_cons] at h
    by_cases hk : k' = k
    · subst hk
      simpa [put] using h
    · rw [put, if_neg hk, List.map_cons, List.nodup_cons]
      exact ⟨fun hm => (mem_keys_put.1 hm).elim hk h.1, ih h.2⟩

/-- The map without entries. -/
def empty : Dict α :=
  ⟨[], by simp⟩

instance : Inhabited (Dict α) := ⟨empty⟩

/-- The number of names. -/
def size (d : Dict α) : Nat :=
  d.entries.length

/-- The names, in order. -/
def keys (d : Dict α) : List String :=
  d.entries.map Prod.fst

/-- The value of a name. -/
def get? (d : Dict α) (k : String) : Option α :=
  find? k d.entries

/-- Give a name a value, in place of an earlier one. -/
def insert (d : Dict α) (k : String) (v : α) : Dict α :=
  ⟨put k v d.entries, nodup_keys_put d.nodup⟩

/-- The entries one after another; of two with one name the later one wins. -/
def ofList (l : List (String × α)) : Dict α :=
  l.foldl (fun d e => d.insert e.1 e.2) empty

/-- The entries by name, in the order of their characters. -/
def sorted (d : Dict α) : List (String × α) :=
  d.entries.mergeSort fun a b => a.1 ≤ b.1

theorem find?_put (k x : String) (v : α) (l : List (String × α)) :
    find? x (put k v l) = if x = k then some v else find? x l := by
  induction l with
  | nil => simp only [put, find?, eq_comm]
  | cons e rest ih =>
    obtain ⟨k', v'⟩ := e
    by_cases hk : k' = k
    · subst hk
      simp only [put, if_true, find?, eq_comm]
      split <;> rfl
    · simp only [put, if_neg hk, find?, ih]
      by_cases hx : k' = x
      · subst hx
        simp [hk]
      · simp [hx]

theorem mem_of_find? {k : String} {l : List (String × α)} {a : α} (h : find? k l = some a) :
    (k, a) ∈ l := by
  induction l with
  | nil => cases h
  | cons e rest ih =>
    obtain ⟨k', v⟩ := e
    unfold find? at h
    split at h
    · rename_i hk
      cases h
      subst hk
      exact List.mem_cons_self
    · exact List.mem_cons_of_mem _ (ih h)

theorem mem_put {k : String} {v : α} {l : List (String × α)} {e : String × α}
    (h : e ∈ put k v l) : e = (k, v) ∨ e ∈ l := by
  induction l with
  | nil => exact .inl (List.mem_singleton.1 h)
  | cons e' rest ih =>
    unfold put at h
    split at h
    · rcases List.mem_cons.1 h with h | h
      · exact .inl h
      · exact .inr (List.mem_cons_of_mem _ h)
    · rcases List.mem_cons.1 h with h | h
      · exact .inr (h ▸ List.mem_cons_self)
      · exact (ih h).imp_right (List.mem_cons_of_mem _)

theorem find?_of_mem {k : String} {l : List (String × α)} {a : α}
    (hl : (l.map Prod.fst).Nodup) (h : (k, a) ∈ l) : find? k l = some a := by
  induction l with
  | nil => cases h
  | cons e rest ih =>
    obtain ⟨k', v⟩ := e
    rw [List.map_cons, List.nodup_cons] at hl
    rcases List.mem_cons.1 h with heq | h
    · cases heq
      simp [find?]
    · have hmem : k ∈ rest.map Prod.fst := List.mem_map_of_mem h
      have hk : k' ≠ k := fun hk => hl.1 (hk ▸ hmem)
      rw [find?, if_neg hk, ih hl.2 h]

theorem find?_eq_none {k : String} {l : List (String × α)} (h : k ∉ l.map Prod.fst) :
    find? k l = none := by
  cases hf : find? k l with
  | none => rfl
  | some a => exact absurd (List.mem_map_of_mem (mem_of_find? hf)) h

/-- A new name is put at the end. -/
theorem put_of_not_mem {k : String} {v : α} {l : List (String × α)} (h : k ∉ l.map Prod.fst) :
    put k v l = l ++ [(k, v)] := by
  induction l with
  | nil => rfl
  | cons e rest ih =>
    obtain ⟨k', v'⟩ := e
    simp only [List.map_cons, List.mem_cons, not_or] at h
    rw [put, if_neg (Ne.symm h.1), ih h.2, List.cons_append]

/-- Each name is put in once, so that its entries make the map again. -/
theorem ofList_entries (d : Dict α) : ofList d.entries = d := by
  have hfold (l : List (String × α)) (e : Dict α)
      (h : ((e.entries ++ l).map Prod.fst).Nodup) :
      (l.foldl (fun d e => d.insert e.1 e.2) e).entries = e.entries ++ l := by
    induction l generalizing e with
    | nil => simp
    | cons entry rest ih =>
      obtain ⟨k, v⟩ := entry
      have hk : k ∉ e.entries.map Prod.fst := by
        rw [List.map_append, List.nodup_append] at h
        exact fun hk => h.2.2 k hk k (by simp) rfl
      have hins : (e.insert k v).entries = e.entries ++ [(k, v)] := put_of_not_mem hk
      rw [List.foldl_cons, ih _ (by simpa [hins] using h), hins, List.append_assoc,
        List.singleton_append]
  have hentries : (ofList d.entries).entries = d.entries := hfold d.entries empty d.nodup
  generalize ofList d.entries = e at hentries
  cases d
  cases e
  cases hentries
  rfl

/-- A look-up after an insertion. -/
@[simp] theorem get?_insert (d : Dict α) (k x : String) (v : α) :
    (d.insert k v).get? x = if x = k then some v else d.get? x :=
  find?_put k x v d.entries

@[simp] theorem get?_empty (x : String) : (empty : Dict α).get? x = none :=
  rfl

end Dict

end Treewalk
