import PeerChat.System.Listening
import PeerChat.Wake.Cleared

/-! The producer of wakes. Only the holder of the listener's lock claims and records wakes, so
between a claim and the records that follow it the marker is the producer's own, or gone. -/
namespace PeerChat.Wake
open Python Wire Interleaving

/-- A marker, if there is one, is for this message. -/
def MarkerIs (id : Str) (w : World) : Prop := ∀ p, w.store.keys.wakePending = some p → p.id = id

/-- Only a listener produces wakes, and it records no wake over the marker of another. -/
def Guarantee (listener : Bool) (w : World) (op : Op) : Prop :=
  (op.producesWake = true → listener = true) ∧
    ∀ marker, op = .key (.recordWake marker) → MarkerIs marker.id w

/-- What a process sees others do. -/
def Rely (listener : Bool) (_ : World) (op : Op) : Prop :=
  listener = true → op.producesWake = false

abbrev Keeps {α : Type} (listener : Bool) (P : World → Prop) (p : Code α) : Prop :=
  Sat (fun _ => True) (Rely listener) (Guarantee listener) P p fun _ _ => True

lemma stable_markerIs (id : Str) : Stable (fun _ => True) (Rely true) (MarkerIs id) := by
  intro w op _ hR h p hp
  rcases foreign_cases (hR rfl) w with ⟨heq,-⟩ | ⟨-,hn,-⟩
  · exact h p (heq ▸ hp)
  · rw [hn] at hp
    cases hp

/-- A record keeps the marker its own. -/
lemma recordWake_markerIs {marker : Marker} {w : World} (h : MarkerIs marker.id w) :
    MarkerIs marker.id (apply (Op.key (.recordWake marker)) w) := by
  intro p hp
  change (recordWake w.machine.now marker w.store.keys).wakePending = some p at hp
  rcases recordWake_eq w.machine.now marker w.store.keys with heq | ⟨state,e,heq⟩
  · exact h p (heq ▸ hp)
  · rw [heq] at hp
    exact (Owned.of_record w.machine.now marker.id state e h).marker p hp

lemma guarantee_of_made {ρ : Rights} (hl : ρ.listener = false) {listener : Bool} {w : World}
    {op : Op} (h : Made ρ op) : Guarantee listener w op := by
  have hl' : ¬ ρ.listener = true := by simp [hl]
  refine ⟨?_,?_⟩
  · intro hp
    cases op with
    | inbox op => cases op <;> first | exact absurd h hl' | cases hp
    | key op => cases op <;> first | exact absurd h hl' | cases hp
    | _ => cases hp
  · rintro marker rfl
    exact absurd h hl'

/-- An access that records no wake. -/
lemma guarantee_listener {w : World} {op : Op} (h : ∀ marker, op ≠ .key (.recordWake marker)) :
    Guarantee true w op := ⟨fun _ => rfl,fun marker he => absurd he (h marker)⟩

lemma wakeIdle_keeps (config : Config) : Keeps true (fun _ => True) (wakeIdle config) := by
  intro w _ _
  refine ⟨guarantee_listener (by rintro marker ⟨⟩),?_⟩
  cases hc : claimed w.machine config w.store with
  | none =>
    refine ⟨_,stable_true,trivial,?_⟩
    simp only [Prog.bind,hc]
    exact fun _ _ => trivial
  | some row =>
    refine ⟨_,stable_markerIs row.id,?_,?_⟩
    · obtain ⟨⟨p,hp,hid⟩,-⟩ := claim_held hc
      intro p' hp'
      rw [hp] at hp'
      cases hp'
      exact hid
    · simp only [Prog.bind,hc]
      intro w₁ _ h₁
      refine ⟨⟨fun _ => rfl,?_⟩,_,stable_markerIs row.id,
        @recordWake_markerIs ⟨row.id,.writing,none⟩ _ h₁,?_⟩
      · rintro marker ⟨⟩
        exact h₁
      · intro w₂ _ h₂
        refine ⟨guarantee_listener (by rintro marker ⟨⟩),_,stable_markerIs row.id,h₂,?_⟩
        simp only [Prog.bind]
        cases hm : completion row.id w₂.machine.queue with
        | none => exact fun _ _ => trivial
        | some marker =>
          obtain ⟨hid,-⟩ := completion_marker hm
          intro w₃ _ h₃
          refine ⟨⟨fun _ => rfl,?_⟩,_,stable_true,trivial,fun _ _ => trivial⟩
          rintro marker' ⟨⟩
          rw [hid]
          exact h₃

lemma dispatch_keeps (U : Interp) (config : Config) :
    Keeps true (fun _ => True) (dispatch U config) := by
  have hemits : ∀ {α : Type} {p : Code α},
      p.Emits (fun l => ∀ marker, l ≠ .key (.recordWake marker)) →
      Keeps true (fun _ => True) p :=
    fun hp => Sat.of_emits hp fun _ _ _ h => guarantee_listener h
  have hlook : ∀ {what : Look} {w : World}, Guarantee true w (.look what) :=
    guarantee_listener (by rintro marker ⟨⟩)
  intro w _ _
  refine ⟨hlook,_,stable_true,trivial,?_⟩
  simp only [Prog.bind]
  split
  · rename_i row _
    refine hemits (dispatchOutgoing_emits ?_ U config row ?_ (fun _ => ?_) fun _ _ => ?_)
    · rintro what - marker ⟨⟩
    · rintro marker ⟨⟩
    · rintro marker ⟨⟩
    · rintro marker ⟨⟩
  · intro w₁ _ _
    refine ⟨hlook,_,stable_true,trivial,?_⟩
    simp only [Prog.bind]
    split_ifs
    · exact fun _ _ => trivial
    · intro w₂ _ _
      refine ⟨hlook,_,stable_true,trivial,?_⟩
      simp only [Prog.bind]
      split_ifs
      · exact wakeIdle_keeps config
      · -- the queue mode records no wake
        intro w₃ _ _
        refine ⟨hlook,_,stable_true,trivial,?_⟩
        simp only [Prog.bind]
        split_ifs
        · exact fun _ _ => trivial
        · intro w₄ _ _
          refine ⟨hlook,_,stable_true,trivial,?_⟩
          simp only [Prog.bind]
          split_ifs
          · intro w₅ _ _
            refine ⟨hlook,_,stable_true,trivial,?_⟩
            simp only [Prog.bind]
            split
            · exact fun _ _ => trivial
            · refine hemits (forward_emits ?_ ?_ config _)
              · rintro what - marker ⟨⟩
              · rintro op - marker ⟨⟩
          · exact fun _ _ => trivial

/-- The bridge meets these guarantees. -/
theorem producer_sound (U : Interp) (honest : Bool) :
    (bridge U honest).Sound (fun _ => True) Rely Guarantee where
  start p w _ _ := by
    have hmade := p.code_made U
    have hother : ∀ {ρ : Rights}, ρ.listener = false → (p.code U).Emits (Made ρ) →
        Keeps false (fun _ => True) (p.code U) :=
      fun hl hp => Sat.of_emits hp fun _ _ _ h => guarantee_of_made hl h
    cases p with
    | serve pid passes =>
      refine ⟨_,stable_true,trivial,serve_sat ?_ U (dispatch_keeps U) pid passes⟩
      rintro l s - hl
      refine guarantee_listener ?_
      rintro marker rfl
      exact hl
    | accept peer frame => cases frame <;> exact ⟨_,stable_true,trivial,hother rfl hmade⟩
    | _ => exact ⟨_,stable_true,trivial,hother rfl hmade⟩
  compat e e' w l _ hne hg := by
    rintro rfl
    cases e with
    | true => exact absurd ⟨rfl,rfl⟩ hne
    | false =>
      cases hp : l.producesWake with
      | false => rfl
      | true => cases hg.1 hp
  outside e w l _ hout := by
    intro _
    cases l <;> first | rfl | cases hout
  invariant _ _ _ _ _ := trivial
  invariant_outside _ _ _ _ := trivial

/-- In every run a wake is recorded over no marker but its own. -/
theorem records_own (U : Interp) (honest : Bool) (w : World) (es : Schedule) :
    ∀ t ∈ (bridge U honest).trace (.idle w) es, ∀ marker, t.label = .key (.recordWake marker) →
      MarkerIs marker.id t.pre := by
  intro t ht marker hl
  obtain ⟨-,hfair⟩ := (producer_sound U honest).trace_fair es (Pool.idle_safe (s := w) trivial)
  rcases (hfair t ht).2 with ⟨e,hg⟩ | hout
  · exact hg.2 marker hl
  · rw [hl] at hout
    cases hout

end PeerChat.Wake
