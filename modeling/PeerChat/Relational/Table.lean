import Mathlib.Data.List.Basic
import Mathlib.Data.List.Nodup
import Mathlib.Data.List.Sort

/-! Tables with a primary key. Rows stand in insertion order; no two of them share a key, and
every operation keeps that. -/
namespace Relational

structure Table (ρ κ : Type) (key : ρ → κ) where
  rows : List ρ
  nodup : (rows.map key).Nodup

namespace Table
variable {ρ κ : Type} {key : ρ → κ}

def empty : Table ρ κ key := ⟨[],List.nodup_nil⟩

variable [DecidableEq κ]

/-- The row with a key. -/
def find (t : Table ρ κ key) (k : κ) : Option ρ := t.rows.find? fun r => key r = k

/-- `INSERT OR IGNORE`. -/
def insert (t : Table ρ κ key) (r : ρ) : Table ρ κ key :=
  if h : key r ∈ t.rows.map key then t
  else ⟨t.rows ++ [r],by
    rw [List.map_append]
    exact t.nodup.append (List.nodup_singleton _) (by simpa [List.disjoint_singleton] using h)⟩

/-- `INSERT OR REPLACE`: the old row goes and the new one comes last. -/
def replace (t : Table ρ κ key) (r : ρ) : Table ρ κ key :=
  ⟨t.rows.filter (fun x => key x ≠ key r) ++ [r],by
    rw [List.map_append]
    refine ((t.nodup.sublist ((List.filter_sublist).map key))).append (List.nodup_singleton _) ?_
    simp [List.disjoint_singleton]⟩

omit [DecidableEq κ] in
/-- `UPDATE … WHERE`, for an update that leaves the key columns alone. -/
def update (t : Table ρ κ key) (p : ρ → Bool) (f : ρ → ρ) (hf : ∀ r, key (f r) = key r) :
    Table ρ κ key :=
  ⟨t.rows.map fun r => if p r then f r else r,by
    have hk : (t.rows.map fun r => if p r then f r else r).map key = t.rows.map key := by
      rw [List.map_map]
      refine List.map_congr_left fun r _ => ?_
      simp only [Function.comp_apply]
      split_ifs
      · exact hf r
      · rfl
    rw [hk]
    exact t.nodup⟩

omit [DecidableEq κ] in
/-- `SELECT … WHERE … ORDER BY`, stable in the insertion order. -/
def select (t : Table ρ κ key) (p : ρ → Bool) (before : ρ → ρ → Prop) [DecidableRel before] : List ρ :=
  (t.rows.filter p).insertionSort before

theorem find_some {t : Table ρ κ key} {k : κ} {r : ρ} (h : t.find k = some r) :
    r ∈ t.rows ∧ key r = k := by
  refine ⟨List.mem_of_find?_eq_some h,?_⟩
  simpa using List.find?_some h

theorem find_eq_none_iff {t : Table ρ κ key} {k : κ} : t.find k = none ↔ k ∉ t.rows.map key := by
  simp [find]

/-- A row is the one that its key finds. -/
theorem find_of_mem {t : Table ρ κ key} {r : ρ} (h : r ∈ t.rows) : t.find (key r) = some r := by
  cases hf : t.find (key r) with
  | none => exact absurd (List.mem_map_of_mem h) (find_eq_none_iff.mp hf)
  | some x =>
    obtain ⟨hx,hk⟩ := find_some hf
    rw [List.inj_on_of_nodup_map t.nodup hx h hk]

theorem find_eq_some_iff {t : Table ρ κ key} {k : κ} {r : ρ} :
    t.find k = some r ↔ r ∈ t.rows ∧ key r = k := by
  constructor
  · exact find_some
  · rintro ⟨h,rfl⟩
    exact find_of_mem h

theorem find_update (t : Table ρ κ key) (p : ρ → Bool) (f : ρ → ρ) (hf : ∀ r, key (f r) = key r)
    (k : κ) : (t.update p f hf).find k = (t.find k).map fun r => if p r then f r else r := by
  simp only [find,update,List.find?_map]
  congr 2
  funext r
  simp only [Function.comp_apply]
  split_ifs
  · rw [hf]
  · rfl

theorem find_insert (t : Table ρ κ key) (r : ρ) (k : κ) :
    (t.insert r).find k = if k = key r then some ((t.find k).getD r) else t.find k := by
  by_cases h : key r ∈ t.rows.map key
  · simp only [insert,dif_pos h]
    split_ifs with hk
    · subst hk
      cases hf : t.find (key r) with
      | none => exact absurd h (find_eq_none_iff.mp hf)
      | some x => rfl
    · rfl
  · simp only [insert,dif_neg h,find,List.find?_append]
    by_cases hk : k = key r
    · subst hk
      have hn : t.find (key r) = none := find_eq_none_iff.mpr h
      simp only [find] at hn
      simp [hn]
    · have hk' : ¬ key r = k := fun he => hk he.symm
      simp [hk,hk']

/-- An insertion under a key that is there does nothing. -/
theorem insert_of_some {t : Table ρ κ key} {r : ρ} (h : (t.find (key r)).isSome = true) :
    t.insert r = t := by
  refine dif_pos ?_
  by_contra hn
  rw [find_eq_none_iff.mpr hn] at h
  cases h

/-- An insertion keeps the rows that are there. -/
theorem find_insert_of_some {t : Table ρ κ key} {r x : ρ} {k : κ} (h : t.find k = some x) :
    (t.insert r).find k = some x := by
  rw [find_insert,h]
  split_ifs <;> rfl

/-- Of several insertions under a key the first counts, unless the key has been there. -/
theorem find_foldl_insert (t : Table ρ κ key) (rows : List ρ) (k : κ) :
    (rows.foldl insert t).find k = (t.find k).orElse fun _ => rows.find? fun r => key r = k := by
  induction rows generalizing t with
  | nil => cases h : t.find k <;> simp [h]
  | cons r rows ih =>
    rw [List.foldl_cons,ih,find_insert,List.find?_cons]
    by_cases hk : k = key r
    · subst hk
      cases h : t.find (key r) <;> simp
    · have hk' : ¬ key r = k := fun he => hk he.symm
      simp [hk,hk']

theorem find_replace (t : Table ρ κ key) (r : ρ) (k : κ) :
    (t.replace r).find k = if k = key r then some r else t.find k := by
  have hfilter : (t.rows.filter fun x => decide (key x ≠ key r)).find? (fun x => key x = k) =
      if k = key r then none else t.find k := by
    split_ifs with hk
    · simp [List.find?_eq_none,hk]
    · rw [List.find?_filter,find]
      congr 1
      funext x
      by_cases hx : key x = k <;> simp [hx,hk]
  rw [find,replace,List.find?_append,hfilter]
  split_ifs with hk
  · simp [hk]
  · have hk' : ¬ key r = k := fun he => hk he.symm
    simp [hk']

omit [DecidableEq κ] in
/-- `DELETE … WHERE`. -/
def delete (t : Table ρ κ key) (p : ρ → Bool) : Table ρ κ key :=
  ⟨t.rows.filter fun r => !p r,t.nodup.sublist (List.filter_sublist.map key)⟩

omit [DecidableEq κ] in
theorem select_mem {t : Table ρ κ key} {p : ρ → Bool} {before : ρ → ρ → Prop}
    [DecidableRel before] {r : ρ} : r ∈ t.select p before ↔ r ∈ t.rows ∧ p r = true := by
  rw [select,List.mem_insertionSort,List.mem_filter]

omit [DecidableEq κ] in
theorem select_nodup (t : Table ρ κ key) (p : ρ → Bool) (before : ρ → ρ → Prop)
    [DecidableRel before] : ((t.select p before).map key).Nodup := by
  have hp : (t.select p before).Perm (t.rows.filter p) := List.perm_insertionSort ..
  rw [(hp.map key).nodup_iff]
  exact t.nodup.sublist (List.filter_sublist.map key)

/-- Insertion into a sorted list, seen through a filter. -/
theorem filter_orderedInsert (before : ρ → ρ → Prop) [DecidableRel before] [IsTrans ρ before]
    (p : ρ → Bool) (a : ρ) {l : List ρ} (hl : l.Pairwise before) :
    (l.orderedInsert before a).filter p =
      if p a then (l.filter p).orderedInsert before a else l.filter p := by
  induction l with
  | nil =>
    by_cases ha : p a = true <;> simp [ha]
  | cons b l ih =>
    obtain ⟨hb,hl'⟩ := List.pairwise_cons.mp hl
    by_cases hab : before a b
    · -- everything comes after `a`
      have hall : ∀ x ∈ (b::l).filter p, before a x := by
        intro x hx
        obtain ⟨hx,-⟩ := List.mem_filter.mp hx
        rcases List.mem_cons.mp hx with rfl | hx
        · exact hab
        · exact IsTrans.trans a b x hab (hb x hx)
      rw [List.orderedInsert_cons_of_le before _ hab]
      by_cases ha : p a = true
      · rw [if_pos ha,List.filter_cons_of_pos ha]
        cases hf : (b::l).filter p with
        | nil => rfl
        | cons x xs =>
          rw [List.orderedInsert_cons_of_le before _ (hall x (by rw [hf]; simp))]
      · rw [if_neg ha,List.filter_cons_of_neg ha]
    · rw [List.orderedInsert_of_not_le before _ hab]
      by_cases hpb : p b = true
      · rw [List.filter_cons_of_pos hpb,List.filter_cons_of_pos hpb,ih hl']
        by_cases ha : p a = true
        · rw [if_pos ha,if_pos ha,List.orderedInsert_of_not_le before _ hab]
        · rw [if_neg ha,if_neg ha]
      · rw [List.filter_cons_of_neg hpb,List.filter_cons_of_neg hpb,ih hl']

/-- The sort is stable, so it does not matter whether rows are dropped before it or after it. -/
theorem filter_insertionSort (before : ρ → ρ → Prop) [DecidableRel before] [IsTrans ρ before]
    [Std.Total before] (p : ρ → Bool) (l : List ρ) :
    (l.insertionSort before).filter p = (l.filter p).insertionSort before := by
  induction l with
  | nil => rfl
  | cons a l ih =>
    rw [List.insertionSort_cons,filter_orderedInsert before p a (List.pairwise_insertionSort _ _),ih]
    by_cases ha : p a = true
    · rw [if_pos ha,List.filter_cons_of_pos ha,List.insertionSort_cons]
    · rw [if_neg ha,List.filter_cons_of_neg ha]

omit [DecidableEq κ] in
theorem select_delete (t : Table ρ κ key) (p q : ρ → Bool) (before : ρ → ρ → Prop)
    [DecidableRel before] [IsTrans ρ before] [Std.Total before] :
    (t.delete p).select q before = (t.select q before).filter fun r => !p r := by
  rw [select,select,delete,filter_insertionSort,List.filter_filter,List.filter_filter]
  congr 2
  funext r
  exact Bool.and_comm ..

omit [DecidableEq κ] in
/-- Counting may be confined to a list that holds every row that counts. -/
theorem countP_eq (t : Table ρ κ key) (p : ρ → Bool) {L : List ρ}
    (hL : L.Nodup) (hsub : ∀ r ∈ L, r ∈ t.rows) (hp : ∀ r ∈ t.rows, p r = true → r ∈ L) :
    t.rows.countP p = L.countP p := by
  rw [List.countP_eq_length_filter,List.countP_eq_length_filter]
  refine List.Perm.length_eq ((List.perm_ext_iff_of_nodup ?_ ?_).mpr fun r => ?_)
  · exact (List.Nodup.of_map _ t.nodup).filter _
  · exact hL.filter _
  · simp only [List.mem_filter]
    constructor
    · exact fun h => ⟨hp r h.1 h.2,h.2⟩
    · exact fun h => ⟨hsub r h.1,h.2⟩

end Table
end Relational
