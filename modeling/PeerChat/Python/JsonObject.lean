import PeerChat.Python.Dict
import PeerChat.Python.Json

/-! Objects as dictionaries that are written to: what a key finds after assignments and removals,
and which of them commute. -/
namespace Python
namespace Dict
section
variable {κ ν : Type} [BEq κ] [DecidableEq κ]

/-- `d.pop(k, None)`. -/
def pop (d : List (κ × ν)) (k : κ) : List (κ × ν) := d.filter fun p => p.1 ≠ k

/-- `d.setdefault(k, v)`, as far as the dictionary goes. -/
def setDefault (d : List (κ × ν)) (k : κ) (v : ν) : List (κ × ν) :=
  if d.any (·.1 == k) then d else d ++ [(k,v)]

omit [BEq κ] in
lemma mem_keys_pop {d : List (κ × ν)} {k j : κ} : j ∈ keys (pop d k) ↔ j ≠ k ∧ j ∈ keys d := by
  constructor
  · intro h
    obtain ⟨p,hp,rfl⟩ := List.mem_map.mp h
    obtain ⟨hp,hne⟩ := List.mem_filter.mp hp
    exact ⟨of_decide_eq_true hne,mem_keys hp⟩
  · intro ⟨hne,h⟩
    obtain ⟨p,hp,rfl⟩ := List.mem_map.mp h
    exact List.mem_map_of_mem (List.mem_filter.mpr ⟨hp,decide_eq_true hne⟩)

variable [LawfulBEq κ]

/-- A key that is assigned again has its last value. -/
lemma set_set (d : List (κ × ν)) (k : κ) (v w : ν) : set (set d k v) k w = set d k w := by
  have hk : k ∈ keys (set d k v) := mem_keys_set.mpr (Or.inl rfl)
  rw [set_of_mem hk]
  by_cases h : k ∈ keys d
  · rw [set_of_mem h,set_of_mem h,List.map_map]
    congr 1
    funext p
    by_cases hp : p.1 = k <;> simp [hp]
  · rw [set_of_not_mem h,set_of_not_mem h,List.map_append]
    congr 1
    · refine (List.map_congr_left fun p hp => ?_).trans (List.map_id d)
      exact if_neg fun he : p.1 = k => h (he ▸ mem_keys hp)
    · simp

/-- Assignments to two keys commute, if the first key is there already. -/
lemma set_comm {d : List (κ × ν)} {k j : κ} (hne : k ≠ j) (hk : k ∈ keys d) (v w : ν) :
    set (set d k v) j w = set (set d j w) k v := by
  have hk' : k ∈ keys (set d j w) := mem_keys_set.mpr (Or.inr hk)
  rw [set_of_mem hk']
  by_cases hj : j ∈ keys d
  · have hj' : j ∈ keys (set d k v) := mem_keys_set.mpr (Or.inr hj)
    rw [set_of_mem hj',set_of_mem hk,set_of_mem hj,List.map_map,List.map_map]
    congr 1
    funext p
    by_cases hpk : p.1 = k
    · simp [hpk,hne]
    · by_cases hpj : p.1 = j
      · simp [hpj,hne.symm]
      · simp [hpk,hpj]
  · have hj' : j ∉ keys (set d k v) := by
      intro h
      obtain h | h := mem_keys_set.mp h
      · exact hne h.symm
      · exact hj h
    rw [set_of_not_mem hj',set_of_mem hk,set_of_not_mem hj,List.map_append]
    simp [hne.symm]

/-- A key that is removed after an assignment to it. -/
lemma pop_set (d : List (κ × ν)) (k : κ) (v : ν) : pop (set d k v) k = pop d k := by
  unfold pop
  by_cases h : k ∈ keys d
  · rw [set_of_mem h]
    clear h
    induction d with
    | nil => rfl
    | cons p d ih =>
      by_cases hp : p.1 = k
      · rw [List.map_cons,if_pos hp,List.filter_cons_of_neg (by simp),ih,
          List.filter_cons_of_neg (by simp [hp])]
      · rw [List.map_cons,if_neg hp,List.filter_cons_of_pos (by simp [hp]),ih,
          List.filter_cons_of_pos (by simp [hp])]
  · rw [set_of_not_mem h,List.filter_append]
    simp

/-- The removal of another key commutes with an assignment. -/
lemma pop_set_comm {d : List (κ × ν)} {k j : κ} (hne : k ≠ j) (w : ν) :
    pop (set d j w) k = set (pop d k) j w := by
  by_cases hj : j ∈ keys d
  · have hj' : j ∈ keys (pop d k) := mem_keys_pop.mpr ⟨hne.symm,hj⟩
    rw [set_of_mem hj,set_of_mem hj']
    unfold pop
    clear hj hj'
    induction d with
    | nil => rfl
    | cons p d ih =>
      by_cases hpj : p.1 = j
      · simp only [List.map_cons,hpj,if_true]
        rw [List.filter_cons_of_pos (by simp [hne.symm]),ih,
          List.filter_cons_of_pos (by simp [hpj,hne.symm])]
        simp [hpj]
      · by_cases hpk : p.1 = k
        · simp only [List.map_cons,hpj,if_false]
          rw [List.filter_cons_of_neg (by simp [hpk]),ih,List.filter_cons_of_neg (by simp [hpk])]
        · simp only [List.map_cons,hpj,if_false]
          rw [List.filter_cons_of_pos (by simp [hpk]),ih,List.filter_cons_of_pos (by simp [hpk])]
          simp [hpj]
  · have hj' : j ∉ keys (pop d k) := fun h => hj (mem_keys_pop.mp h).2
    rw [set_of_not_mem hj,set_of_not_mem hj']
    unfold pop
    rw [List.filter_append]
    simp [hne.symm]

end
end Dict

namespace Json

lemma get_obj (d : List (Str × Json)) (k : Str) : (obj d).get k = d.reverse.lookup k := rfl

/-- What an object finds after an assignment. -/
lemma get_set (d : List (Str × Json)) (k j : Str) (v : Json) :
    (obj (Dict.set d k v)).get j = if j = k then some v else (obj d).get j := by
  rw [get_obj,get_obj]
  by_cases hk : k ∈ Dict.keys d
  · have hk' : k ∈ Dict.keys d.reverse := by
      rw [Dict.keys,List.map_reverse,List.mem_reverse]
      exact hk
    rw [Dict.set_of_mem hk,← List.map_reverse,← Dict.set_of_mem hk']
    exact Dict.lookup_set d.reverse k v j
  · rw [Dict.set_of_not_mem hk,List.reverse_append,List.reverse_singleton,List.singleton_append,
      List.lookup_cons]
    by_cases hj : j = k
    · simp [hj]
    · have hb : (j == k) = false := by simpa using hj
      simp [hb,hj]

/-- A key that is missing finds nothing. -/
lemma get_eq_none_iff {d : List (Str × Json)} {k : Str} :
    (obj d).get k = none ↔ k ∉ Dict.keys d := by
  rw [get_obj,Dict.lookup_eq_none_iff,Dict.keys,List.map_reverse,List.mem_reverse]
  rfl

/-- What an object finds after a removal. -/
lemma get_pop (d : List (Str × Json)) (k j : Str) :
    (obj (Dict.pop d k)).get j = if j = k then none else (obj d).get j := by
  by_cases hj : j = k
  · rw [if_pos hj,get_eq_none_iff,Dict.mem_keys_pop]
    exact fun h => h.1 hj
  · rw [if_neg hj,get_obj,get_obj,Dict.pop,← List.filter_reverse]
    induction d.reverse with
    | nil => rfl
    | cons p ps ih =>
      by_cases hp : p.1 = k
      · have hb : (j == p.1) = false := by simpa [hp] using hj
        rw [List.filter_cons_of_neg (by simp [hp]),ih,List.lookup_cons,hb]
      · rw [List.filter_cons_of_pos (by simp [hp]),List.lookup_cons,List.lookup_cons,ih]

/-- What an object finds when a default has been given to a key. -/
lemma get_setDefault (d : List (Str × Json)) (k j : Str) (v : Json) :
    (obj (Dict.setDefault d k v)).get j = if j = k ∧ k ∉ Dict.keys d then some v else (obj d).get j := by
  unfold Dict.setDefault
  by_cases hk : k ∈ Dict.keys d
  · rw [if_pos ((Dict.any_key_iff d k).mpr hk)]
    simp [hk]
  · rw [if_neg fun h => hk ((Dict.any_key_iff d k).mp h),← Dict.set_of_not_mem hk,get_set]
    simp [hk]

end Json
end Python
