import PeerChat.Relational.FirstWins

/-! The one entry of a keyed table that a probe accepts, if it is the only one. -/
namespace Relational

variable {κ ρ ε : Type}

/-- The keys that the probe accepts, with what it finds. -/
def scan (probe : ρ → Option ε) (table : List (κ × ρ)) : List (κ × ε) :=
  table.filterMap fun p => (probe p.2).map fun e => (p.1,e)

/-- The only element. -/
def unique {α : Type} : List α → Option α
  | [a] => some a
  | _ => none

theorem unique_eq_some {α : Type} {l : List α} {a : α} : unique l = some a ↔ l = [a] := by
  constructor
  · intro h
    cases l with
    | nil => cases h
    | cons b l =>
      cases l with
      | nil =>
        cases h
        rfl
      | cons c l => cases h
  · intro h
    rw [h]
    rfl

variable {probe : ρ → Option ε} {table : List (κ × ρ)}

theorem mem_scan {k : κ} {e : ε} :
    (k,e) ∈ scan probe table ↔ ∃ r, (k,r) ∈ table ∧ probe r = some e := by
  unfold scan
  rw [List.mem_filterMap]
  constructor
  · intro h
    obtain ⟨⟨j,r⟩,hr,hmap⟩ := h
    obtain ⟨f,hf,heq⟩ := Option.map_eq_some_iff.mp hmap
    cases heq
    exact ⟨r,hr,hf⟩
  · intro h
    obtain ⟨r,hr,he⟩ := h
    exact ⟨(k,r),hr,by simp [he]⟩

/-- The accepted keys come in the order of the table. -/
theorem scan_keys_sublist (probe : ρ → Option ε) (table : List (κ × ρ)) :
    ((scan probe table).map Prod.fst).Sublist (table.map Prod.fst) := by
  unfold scan
  refine map_filterMap_sublist (fun p q hq => ?_) table
  obtain ⟨e,-,rfl⟩ := Option.map_eq_some_iff.mp hq
  rfl

/-- In a table of different keys, a match is the only one where no other key has one. -/
theorem unique_scan_iff (hkeys : (table.map Prod.fst).Nodup) {k : κ} {r : ρ} {e : ε}
    (hr : (k,r) ∈ table) (he : probe r = some e) : unique (scan probe table) = some (k,e) ↔
      ∀ p ∈ table, (probe p.2).isSome = true → p.1 = k := by
  have hmem : (k,e) ∈ scan probe table := mem_scan.mpr ⟨r,hr,he⟩
  rw [unique_eq_some]
  constructor
  · intro h p hp hsome
    obtain ⟨f,hf⟩ := Option.isSome_iff_exists.mp hsome
    have hscan : (p.1,f) ∈ scan probe table := mem_scan.mpr ⟨p.2,hp,hf⟩
    rw [h] at hscan
    exact congrArg Prod.fst (List.mem_singleton.mp hscan)
  · intro h
    have hnodup := (scan_keys_sublist probe table).nodup hkeys
    have hall : ∀ q ∈ (scan probe table).map Prod.fst, q = k := by
      intro q hq
      obtain ⟨⟨j,f⟩,hf,rfl⟩ := List.mem_map.mp hq
      obtain ⟨s,hs,hprobe⟩ := mem_scan.mp hf
      exact h (j,s) hs (by simp [hprobe])
    have hone : (scan probe table).length = 1 := by
      have hrep : (scan probe table).map Prod.fst =
          List.replicate (scan probe table).length k :=
        List.eq_replicate_iff.mpr ⟨List.length_map _,hall⟩
      rw [hrep,List.nodup_replicate] at hnodup
      have hpos := List.length_pos_of_mem hmem
      omega
    obtain ⟨x,hx⟩ := List.length_eq_one_iff.mp hone
    rw [hx] at hmem ⊢
    rw [List.mem_singleton.mp hmem]

end Relational
