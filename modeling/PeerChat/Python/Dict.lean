import Mathlib.Data.List.Basic
import Mathlib.Data.List.Find
import Mathlib.Data.List.Nodup
import Mathlib.Order.Fin.Basic

/-! Insertion-ordered dictionaries, as lists of pairs. Assigning to a key that is there keeps its
place. -/
namespace Python.Dict
variable {κ ν : Type} [BEq κ] [DecidableEq κ]

/-- `d[k] = v`. -/
def set (d : List (κ × ν)) (k : κ) (v : ν) : List (κ × ν) :=
  if d.any (·.1 == k) then d.map fun p => if p.1 = k then (k,v) else p else d ++ [(k,v)]

def keys (d : List (κ × ν)) : List κ := d.map Prod.fst

omit [BEq κ] [DecidableEq κ] in
@[simp] lemma keys_nil : keys ([] : List (κ × ν)) = [] := rfl

omit [BEq κ] [DecidableEq κ] in
@[simp] lemma keys_cons (p : κ × ν) (d : List (κ × ν)) : keys (p::d) = p.1 :: keys d := rfl

omit [BEq κ] [DecidableEq κ] in
lemma mem_keys {d : List (κ × ν)} {p : κ × ν} (h : p ∈ d) : p.1 ∈ keys d := List.mem_map_of_mem h

variable [LawfulBEq κ]

omit [DecidableEq κ] in
lemma any_key_iff (d : List (κ × ν)) (k : κ) : d.any (·.1 == k) = true ↔ k ∈ keys d := by
  simp [keys]

lemma set_of_mem {d : List (κ × ν)} {k : κ} (h : k ∈ keys d) (v : ν) :
    set d k v = d.map fun p => if p.1 = k then (k,v) else p := if_pos ((any_key_iff d k).mpr h)

lemma set_of_not_mem {d : List (κ × ν)} {k : κ} (h : k ∉ keys d) (v : ν) :
    set d k v = d ++ [(k,v)] := if_neg fun ha => h ((any_key_iff d k).mp ha)

/-- The keys stay in their places. -/
lemma keys_set (d : List (κ × ν)) (k : κ) (v : ν) :
    keys (set d k v) = if k ∈ keys d then keys d else keys d ++ [k] := by
  split_ifs with h
  · rw [set_of_mem h,keys,keys,List.map_map]
    refine List.map_congr_left fun p _ => ?_
    simp only [Function.comp_apply]
    split_ifs with hp
    · exact hp.symm
    · rfl
  · simp [set_of_not_mem h,keys]

lemma mem_keys_set {d : List (κ × ν)} {k j : κ} {v : ν} :
    j ∈ keys (set d k v) ↔ j = k ∨ j ∈ keys d := by
  rw [keys_set]
  split_ifs with h
  · constructor
    · exact Or.inr
    · rintro (rfl | hj)
      · exact h
      · exact hj
  · simp [or_comm]

lemma nodup_set {d : List (κ × ν)} (h : (keys d).Nodup) (k : κ) (v : ν) :
    (keys (set d k v)).Nodup := by
  rw [keys_set]
  split_ifs with hk
  · exact h
  · exact h.append (List.nodup_singleton k) (by simpa [List.disjoint_singleton] using hk)

lemma mem_set {d : List (κ × ν)} {k : κ} {v : ν} {p : κ × ν} (h : p ∈ set d k v) :
    p = (k,v) ∨ p ∈ d := by
  by_cases hk : k ∈ keys d
  · rw [set_of_mem hk,List.mem_map] at h
    obtain ⟨q,hq,rfl⟩ := h
    split_ifs
    · exact Or.inl rfl
    · exact Or.inr hq
  · rw [set_of_not_mem hk,List.mem_append,List.mem_singleton] at h
    exact h.symm

/-- What is there under another key stays. -/
lemma mem_set_of_mem {d : List (κ × ν)} {k : κ} {p : κ × ν} (h : p ∈ d) (hne : p.1 ≠ k) (v : ν) :
    p ∈ set d k v := by
  by_cases hk : k ∈ keys d
  · rw [set_of_mem hk]
    exact List.mem_map.mpr ⟨p,h,if_neg hne⟩
  · rw [set_of_not_mem hk]
    exact List.mem_append_left _ h

omit [DecidableEq κ] in
lemma lookup_eq_none_iff {d : List (κ × ν)} {k : κ} : d.lookup k = none ↔ k ∉ keys d := by
  induction d with
  | nil => simp
  | cons p d ih =>
    rw [List.lookup_cons]
    by_cases h : k = p.1
    · simp [h]
    · have hb : (k == p.1) = false := by simpa using h
      simp [hb,h,ih]

lemma lookup_set (d : List (κ × ν)) (k : κ) (v : ν) (j : κ) :
    (set d k v).lookup j = if j = k then some v else d.lookup j := by
  by_cases hk : k ∈ keys d
  · rw [set_of_mem hk]
    induction d with
    | nil => simp at hk
    | cons p d ih =>
      by_cases hp : p.1 = k
      · by_cases hj : j = k
        · simp [hp,hj]
        · have hb : (j == k) = false := by simpa using hj
          have hrest : (d.map fun p => if p.1 = k then (k,v) else p).lookup j = d.lookup j := by
            by_cases hd : k ∈ keys d
            · rw [ih hd,if_neg hj]
            · congr 1
              refine (List.map_congr_left fun q hq => ?_).trans (List.map_id d)
              exact if_neg fun he : q.1 = k => hd (he ▸ mem_keys hq)
          have hb' : (j == p.1) = false := by simpa [hp] using hj
          rw [List.map_cons,if_pos hp,List.lookup_cons,hb,if_neg hj,List.lookup_cons,hb',hrest]
      · have hd : k ∈ keys d := by
          rcases List.mem_cons.mp hk with h | h
          · exact absurd h.symm hp
          · exact h
        rw [List.map_cons,if_neg hp,List.lookup_cons,List.lookup_cons,ih hd]
        by_cases hj : j = p.1
        · have hne : ¬ j = k := fun he => hp (hj.symm.trans he)
          simp [hj,hp]
        · have hb : (j == p.1) = false := by simpa using hj
          simp [hb]
  · rw [set_of_not_mem hk,List.lookup_append]
    by_cases hj : j = k
    · subst hj
      simp [lookup_eq_none_iff.mpr hk]
    · have hb : (j == k) = false := by simpa using hj
      simp [List.lookup_cons,hb,hj]

/-- Entries with keys of their own are set one after the other. -/
lemma foldl_set_append (d e : List (κ × ν)) (h : (keys (d ++ e)).Nodup) :
    e.foldl (fun out p => set out p.1 p.2) d = d ++ e := by
  induction e generalizing d with
  | nil => simp
  | cons p e ih =>
    have hp : p.1 ∉ keys d := by
      rw [keys,List.map_append] at h
      exact fun hm => List.disjoint_of_nodup_append h hm (List.mem_cons_self ..)
    rw [List.foldl_cons,set_of_not_mem hp,ih]
    · rw [List.append_assoc]
      rfl
    · rw [List.append_assoc]
      exact h

/-- The first entry of a kind keeps its key under an assignment that changes no entry's kind. -/
lemma find?_set {P : ν → Bool} {d : List (κ × ν)} {k : κ} {v : ν} {p : κ × ν}
    (hkind : ∀ q ∈ d, q.1 = k → P q.2 = P v) (h : d.find? (fun q => P q.2) = some p) :
    ∃ q, (set d k v).find? (fun q => P q.2) = some q ∧ q.1 = p.1 := by
  by_cases hk : k ∈ keys d
  · have hsame : ∀ q ∈ d, P (if q.1 = k then (k,v) else q).2 = P q.2 := by
      intro q hq
      split_ifs with he
      · exact (hkind q hq he).symm
      · rfl
    have hfind : (d.map fun q => if q.1 = k then (k,v) else q).find? (fun q => P q.2) =
        (d.find? fun q => P q.2).map fun q => if q.1 = k then (k,v) else q := by
      rw [List.find?_map]
      congr 1
      exact List.find?_congr hsame
    rw [set_of_mem hk,hfind,h]
    refine ⟨_,rfl,?_⟩
    dsimp only
    split_ifs with he
    · exact he.symm
    · rfl
  · rw [set_of_not_mem hk,List.find?_append,h]
    exact ⟨p,rfl,rfl⟩

end Python.Dict
