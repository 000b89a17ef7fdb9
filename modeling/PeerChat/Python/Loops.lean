import Mathlib.Data.List.Basic

/-! Loops whose body may raise. -/
namespace Python

section
variable {α β ε : Type}

/-- The results of a loop that appends at most one in each pass, up to the first exception. -/
def collect (f : α → Except ε (Option β)) : List α → Except ε (List β)
  | [] => .ok []
  | x::xs => do
    let found ← f x
    let rest ← collect f xs
    .ok (found.toList ++ rest)

/-- The same for passes that append several. -/
def collectAll (f : α → Except ε (List β)) : List α → Except ε (List β)
  | [] => .ok []
  | x::xs => do
    let found ← f x
    let rest ← collectAll f xs
    .ok (found ++ rest)

lemma bind_eq_ok {x : Except ε α} {f : α → Except ε β} {b : β} :
    x >>= f = .ok b ↔ ∃ a, x = .ok a ∧ f a = .ok b := by
  cases x <;> simp [bind,Except.bind]

lemma map_eq_ok {x : Except ε α} {f : α → β} {b : β} :
    f <$> x = .ok b ↔ ∃ a, x = .ok a ∧ f a = b := by
  cases x <;> simp [Functor.map,Except.map]

lemma collect_cons {f : α → Except ε (Option β)} {x : α} {found : Option β} (h : f x = .ok found)
    (xs : List α) : collect f (x::xs) = (found.toList ++ ·) <$> collect f xs := by
  rw [collect,h]
  rfl

lemma collectAll_isOk {f : α → Except ε (List β)} {xs : List α} :
    (∃ ys, collectAll f xs = .ok ys) ↔ ∀ x ∈ xs, ∃ found, f x = .ok found := by
  induction xs with
  | nil => simp [collectAll]
  | cons x xs ih =>
    simp only [collectAll,bind_eq_ok,List.forall_mem_cons,← ih]
    constructor
    · rintro ⟨_,found,hfound,rest,hrest,-⟩
      exact ⟨⟨found,hfound⟩,rest,hrest⟩
    · rintro ⟨⟨found,hfound⟩,rest,hrest⟩
      exact ⟨_,found,hfound,rest,hrest,rfl⟩

lemma mem_collectAll {f : α → Except ε (List β)} {xs : List α} {ys : List β}
    (h : collectAll f xs = .ok ys) {y : β} : y ∈ ys ↔ ∃ x ∈ xs, ∃ found, f x = .ok found ∧ y ∈ found := by
  induction xs generalizing ys with
  | nil =>
    cases h
    simp
  | cons x xs ih =>
    simp only [collectAll,bind_eq_ok,Except.ok.injEq] at h
    obtain ⟨found,hfound,rest,hrest,rfl⟩ := h
    rw [List.mem_append,ih hrest,List.exists_mem_cons_iff,hfound]
    simp

lemma collect_eq (f : α → Except ε (Option β)) (xs : List α) :
    collect f xs = collectAll (fun x => Option.toList <$> f x) xs := by
  induction xs with
  | nil => rfl
  | cons x xs ih =>
    rw [collect,collectAll,ih]
    cases f x <;> rfl

lemma collect_isOk {f : α → Except ε (Option β)} {xs : List α} :
    (∃ ys, collect f xs = .ok ys) ↔ ∀ x ∈ xs, ∃ found, f x = .ok found := by
  rw [collect_eq,collectAll_isOk]
  simp [map_eq_ok]

lemma mem_collect {f : α → Except ε (Option β)} {xs : List α} {ys : List β}
    (h : collect f xs = .ok ys) {y : β} : y ∈ ys ↔ ∃ x ∈ xs, f x = .ok (some y) := by
  rw [collect_eq] at h
  rw [mem_collectAll h]
  simp [map_eq_ok]

end
end Python
