import Mathlib.Data.List.Nodup

/-! Listing rows of several sources so that the first row of a key stays and later ones are passed
over. -/
namespace Relational

variable {ρ κ : Type} [DecidableEq κ] (key : ρ → κ)

/-- One more row, unless its key is there already. -/
def addUnseen (rows : List ρ) (r : ρ) : List ρ := if key r ∈ rows.map key then rows else rows ++ [r]

/-- More rows, in their order. -/
def addAll (rows new : List ρ) : List ρ := new.foldl (addUnseen key) rows

@[simp] theorem addAll_nil (rows : List ρ) : addAll key rows [] = rows := rfl

@[simp] theorem addAll_cons (rows new : List ρ) (r : ρ) :
    addAll key rows (r::new) = addAll key (addUnseen key rows r) new := rfl

variable {key}

theorem addUnseen_of_mem {rows : List ρ} {r : ρ} (h : key r ∈ rows.map key) :
    addUnseen key rows r = rows := if_pos h

theorem addUnseen_of_not_mem {rows : List ρ} {r : ρ} (h : key r ∉ rows.map key) :
    addUnseen key rows r = rows ++ [r] := if_neg h

theorem nodup_addAll {rows new : List ρ} (h : (rows.map key).Nodup) :
    ((addAll key rows new).map key).Nodup := by
  induction new generalizing rows with
  | nil => exact h
  | cons r new ih =>
    rw [addAll_cons]
    apply ih
    by_cases hr : key r ∈ rows.map key
    · rw [addUnseen_of_mem hr]
      exact h
    · rw [addUnseen_of_not_mem hr,List.map_append,List.map_singleton]
      exact List.nodup_append.mpr ⟨h,List.nodup_singleton _,fun a ha b hb he => by
        rw [List.mem_singleton.mp hb] at he
        exact hr (he ▸ ha)⟩

/-- The rows that are listed: the old ones, and the first new one of every other key. -/
theorem mem_addAll {rows new : List ρ} {r : ρ} : r ∈ addAll key rows new ↔
    r ∈ rows ∨ key r ∉ rows.map key ∧ new.find? (key · = key r) = some r := by
  induction new generalizing rows with
  | nil => simp
  | cons s new ih =>
    rw [addAll_cons,ih]
    by_cases hs : key s ∈ rows.map key
    · rw [addUnseen_of_mem hs]
      constructor
      · intro h
        obtain h | ⟨hnew,h⟩ := h
        · exact Or.inl h
        · have hne : key s ≠ key r := fun he => hnew (he ▸ hs)
          exact Or.inr ⟨hnew,by rw [List.find?_cons_of_neg (by simpa using hne)]; exact h⟩
      · intro h
        obtain h | ⟨hnew,h⟩ := h
        · exact Or.inl h
        · have hne : key s ≠ key r := fun he => hnew (he ▸ hs)
          rw [List.find?_cons_of_neg (by simpa using hne)] at h
          exact Or.inr ⟨hnew,h⟩
    · rw [addUnseen_of_not_mem hs]
      simp only [List.mem_append,List.mem_singleton,List.map_append,List.map_singleton,not_or]
      constructor
      · intro h
        obtain (h | rfl) | ⟨⟨hnew,hne⟩,h⟩ := h
        · exact Or.inl h
        · exact Or.inr ⟨hs,List.find?_cons_of_pos (by simp)⟩
        · exact Or.inr ⟨hnew,by rw [List.find?_cons_of_neg (by simpa using Ne.symm hne)]; exact h⟩
      · intro h
        obtain h | ⟨hnew,h⟩ := h
        · exact Or.inl (Or.inl h)
        · by_cases he : key s = key r
          · rw [List.find?_cons_of_pos (by simpa using he),Option.some.injEq] at h
            exact Or.inl (Or.inr h.symm)
          · rw [List.find?_cons_of_neg (by simpa using he)] at h
            exact Or.inr ⟨⟨hnew,Ne.symm he⟩,h⟩

omit [DecidableEq κ] in
/-- Rows that carry the names of what they are made from, have its order. -/
theorem map_filterMap_sublist {α : Type} {f : α → Option ρ} {name : α → κ}
    (h : ∀ a r, f a = some r → key r = name a) (l : List α) :
    ((l.filterMap f).map key).Sublist (l.map name) := by
  induction l with
  | nil => exact List.Sublist.slnil
  | cons a l ih =>
    cases hf : f a with
    | none =>
      rw [List.filterMap_cons_none hf]
      exact ih.cons _
    | some r =>
      rw [List.filterMap_cons_some hf,List.map_cons,List.map_cons,h a r hf]
      exact ih.cons_cons _

end Relational
