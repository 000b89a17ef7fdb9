import Mathlib.Data.List.Induction

/-! The latest marked entry of a log that nothing after it overrules: an entry marks a new latest
one, lets the latest one pass, or clears it. -/
namespace Relational

variable {α : Type*} (marks passes : α → Bool)

/-- One more entry. -/
def latestStep (latest : Option α) (a : α) : Option α :=
  if marks a then some a else if passes a then latest else none

/-- The latest marked entry of the log, from an earlier one. -/
def latestFrom (latest : Option α) (log : List α) : Option α := log.foldl (latestStep marks passes) latest

variable {marks passes}

@[simp] theorem latestFrom_nil (latest : Option α) : latestFrom marks passes latest [] = latest := rfl

@[simp] theorem latestFrom_cons (latest : Option α) (a : α) (log : List α) :
    latestFrom marks passes latest (a::log) =
      latestFrom marks passes (latestStep marks passes latest a) log := rfl

theorem latestFrom_append (latest : Option α) (log log' : List α) :
    latestFrom marks passes latest (log ++ log') =
      latestFrom marks passes (latestFrom marks passes latest log) log' :=
  List.foldl_append

theorem latestStep_of_marks {a : α} (h : marks a = true) (latest : Option α) :
    latestStep marks passes latest a = some a := if_pos h

theorem latestStep_of_passes {a : α} (h : marks a = false) (hp : passes a = true)
    (latest : Option α) : latestStep marks passes latest a = latest := by
  unfold latestStep
  rw [if_neg (by simp [h]),if_pos hp]

/-- The latest one is the earlier one where all entries let it pass, and otherwise the last marked
entry, where those after it let it pass. -/
theorem latestFrom_eq_some {latest : Option α} {log : List α} {a : α} :
    latestFrom marks passes latest log = some a ↔
      (latest = some a ∧ ∀ b ∈ log, marks b = false ∧ passes b = true) ∨
      ∃ before after, log = before ++ a::after ∧ marks a = true ∧
        ∀ b ∈ after, marks b = false ∧ passes b = true := by
  induction log using List.reverseRecOn with
  | nil => simp
  | append_singleton log b ih =>
    rw [latestFrom_append,latestFrom_cons,latestFrom_nil]
    constructor
    · intro h
      unfold latestStep at h
      split_ifs at h with hmarks hpasses
      · obtain rfl := Option.some.inj h
        exact Or.inr ⟨log,[],rfl,hmarks,fun c hc => absurd hc List.not_mem_nil⟩
      · have hb : marks b = false ∧ passes b = true := ⟨by simpa using hmarks,hpasses⟩
        obtain ⟨hlatest,hall⟩ | ⟨before,after,rfl,ha,hall⟩ := ih.mp h
        · refine Or.inl ⟨hlatest,fun c hc => ?_⟩
          obtain hc | hc := List.mem_append.mp hc
          · exact hall c hc
          · rw [List.mem_singleton.mp hc]
            exact hb
        · refine Or.inr ⟨before,after ++ [b],by simp,ha,fun c hc => ?_⟩
          obtain hc | hc := List.mem_append.mp hc
          · exact hall c hc
          · rw [List.mem_singleton.mp hc]
            exact hb
    · intro h
      obtain ⟨hlatest,hall⟩ | ⟨before,after,hlog,ha,hall⟩ := h
      · obtain ⟨hb,hp⟩ := hall b (by simp)
        rw [latestStep_of_passes hb hp]
        exact ih.mpr (Or.inl ⟨hlatest,fun c hc => hall c (List.mem_append_left _ hc)⟩)
      · obtain rfl | ⟨rest,c,rfl⟩ := List.eq_nil_or_concat after
        · obtain ⟨rfl,hc⟩ := List.append_inj' hlog rfl
          obtain rfl : b = a := by simpa using hc
          exact latestStep_of_marks ha _
        · rw [List.concat_eq_append] at hlog hall
          rw [← List.cons_append,← List.append_assoc] at hlog
          obtain ⟨rfl,hc⟩ := List.append_inj' hlog rfl
          obtain rfl : b = c := by simpa using hc
          obtain ⟨hb,hp⟩ := hall b (by simp)
          rw [latestStep_of_passes hb hp]
          exact ih.mpr (Or.inr ⟨before,rest,rfl,ha,fun c hc =>
            hall c (List.mem_append_left _ hc)⟩)

/-- A later part that has a latest entry of its own determines the whole log's. -/
theorem latestFrom_of_later {latest : Option α} {log : List α} {a : α}
    (h : latestFrom marks passes none log = some a) :
    latestFrom marks passes latest log = some a := by
  obtain ⟨hnone,-⟩ | hmarked := latestFrom_eq_some.mp h
  · cases hnone
  · exact latestFrom_eq_some.mpr (Or.inr hmarked)

end Relational
