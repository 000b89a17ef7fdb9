import PeerChat.Inbox.KeySteps
import PeerChat.Interleaving.Log
import PeerChat.System.Frame
import PeerChat.System.Made
import PeerChat.Wire.RoundTrip

/-! The claim of a wake against the readiness that the status commands report. The claim looks at
the phase and the allowances, but at neither the mode nor the evidence of a lifecycle hook. -/
namespace PeerChat.Wake
open Python Wire Interleaving

/-- The step commits a claim. -/
def claimsWake (t : Step World Op) : Bool :=
  match t.label with
  | .inbox (.claimWake config) => (claimed t.pre.machine config t.pre.store).isSome
  | _ => false

lemma claimsWake_mayClaim {t : Step World Op} (h : claimsWake t = true) :
    mayClaim t.pre.store.keys = true := by
  simp only [claimsWake] at h
  split at h
  · rename_i config hop
    simp only [claimed] at h
    split_ifs at h with hm
    · exact hm
    · cases h
  · cases h

/-- Where a claim is made, readiness is reported exactly if the mode is still `auto` and a hook
has left evidence. -/
lemma ready_iff {k : Meta} (h : mayClaim k = true) : deliveryState k = .idleWakeEnabled ↔
    k.delivery = some .auto ∧ lifecycleObserved k = true := by
  simp only [mayClaim,Bool.and_eq_true,decide_eq_true_eq] at h
  obtain ⟨⟨⟨hphase,hbudget⟩,hwakes⟩,-⟩ := h
  cases hd : k.delivery with
  | none => simp [deliveryState,hd]
  | some mode =>
    cases mode with
    | inbox => simp [deliveryState,hd]
    | live => by_cases ho : lifecycleObserved k = true <;> simp [deliveryState,hd,hphase,hbudget,ho]
    | auto =>
      by_cases ho : lifecycleObserved k = true <;>
        simp [deliveryState,hd,hphase,hbudget,hwakes,ho]
    | queue => simp [deliveryState,hd,hphase,hbudget]

/-- An idle phase rests on the evidence of a hook. -/
structure Founded (k : Meta) : Prop where
  observed : k.phase = some .idle → lifecycleObserved k = true

lemma Founded.congr {k k' : Meta} (h : Founded k) (hp : k'.phase = k.phase)
    (hs : k'.hookSeen = k.hookSeen) : Founded k' := by
  refine ⟨fun hidle => ?_⟩
  rw [lifecycleObserved,hs]
  exact h.observed (hp ▸ hidle)

lemma Founded.of_observed {k : Meta} (h : lifecycleObserved k = true) : Founded k := ⟨fun _ => h⟩

/-- A write of the idle phase that finds no evidence of a hook: a hook that the routing check has
rejected, or whose evidence an owner change has deleted, or `connect`. -/
def idleUnfounded (t : Step World Op) : Bool :=
  match t.label with
  | .key (.putPhase .idle) => ¬ lifecycleObserved t.pre.store.keys
  | .key (.seedPhase .idle) => t.pre.store.keys.phase = none ∧ ¬ lifecycleObserved t.pre.store.keys
  | _ => false

lemma Founded.putPhase {k : Meta} {phase : Phase}
    (hw : phase = .idle → lifecycleObserved k = true) : Founded { k with phase := some phase } :=
  ⟨fun hidle => hw (Option.some.inj hidle)⟩

/-- The active events are among those that count as evidence. -/
lemma lifecycle_of_active {event : HookEvent} (h : event.active = true) :
    event.lifecycle = true := by
  cases event <;> first | rfl | cases h

lemma turnEndEvidence_seen {m : Machine} {config : Config} {seen : HookSeen} {evidence : TurnEnd}
    (h : turnEndEvidence m config seen = some evidence) :
    seen.routing = .matched ∧ seen.event.active = true := by
  simp only [turnEndEvidence] at h
  split at h
  · split_ifs at h with hc
    exact ⟨hc.1,hc.2.1⟩
  · cases h

lemma Founded.reconcile {k : Meta} (h : Founded k) (m : Machine) (f : Finding) :
    Founded (reconcile m f k) := by
  simp only [PeerChat.reconcile]
  split_ifs with hc
  · exact h
  · simp only [not_or,not_not] at hc
    obtain ⟨-,-,-,hseen,hev⟩ := hc
    obtain ⟨hm,ha⟩ := turnEndEvidence_seen hev
    refine .of_observed ?_
    simp [lifecycleObserved,hseen,hm,lifecycle_of_active ha]

/-- Every other write that a program makes leaves the idle phase founded. -/
lemma Founded.step {op : Op} {w : World} (h : Founded w.store.keys)
    (hmade : (∃ ρ, Made ρ op) ∨ op.isOutside = true) (hidle : idleUnfounded ⟨op,w⟩ = false) :
    Founded (apply op w).store.keys := by
  by_cases hwrites : MetaKey.phase ∈ op.writes ∨ MetaKey.hookSeen ∈ op.writes
  · cases op with
    | key op =>
      rw [apply_key_keys]
      cases op with
      | putPhase phase =>
        refine .putPhase ?_
        rintro rfl
        simpa [idleUnfounded] using hidle
      | seedPhase phase =>
        refine .putPhase ?_
        intro hp
        cases hk : w.store.keys.phase with
        | some p =>
          rw [hk,Option.getD_some] at hp
          exact h.observed (hp ▸ hk)
        | none =>
          rw [hk,Option.getD_none] at hp
          cases phase with
          | idle => simpa [idleUnfounded,hk] using hidle
          | active => cases hp
          | interrupted => cases hp
          | unknown => cases hp
      | putHookSeen seen =>
        obtain ⟨hm,hl⟩ : seen.routing = .matched ∧ seen.event.lifecycle = true := by
          rcases hmade with ⟨ρ,he⟩ | ho
          · exact he.2
          · cases ho
        exact .of_observed (by simp [KeyOp.apply,lifecycleObserved,hm,hl])
      | seedLifecycle ownerIdentity saved =>
        have hl : saved.event.lifecycle = true := by
          rcases hmade with ⟨ρ,he⟩ | ho
          · exact he.2
          · cases ho
        simp only [KeyOp.apply,PeerChat.seedLifecycle]
        split_ifs
        · exact h
        · exact .of_observed (by simp [lifecycleObserved,hl])
        · exact .of_observed (by simp [lifecycleObserved,hl])
      | changeOwner forgetHook =>
        cases forgetHook with
        | true => exact ⟨fun hidle => by cases hidle⟩
        | false => exact h.congr rfl rfl
      | reconcile finding => exact h.reconcile ..
      | putBudget key value => cases key <;> simp [Op.writes,KeyOp.writes,BudgetKey.metaKey] at hwrites
      | configureDelivery mode budget =>
        cases budget <;> simp [Op.writes,KeyOp.writes,windowKeys] at hwrites
      | _ => simp [Op.writes,KeyOp.writes,wakeKeys] at hwrites
    | inbox op => cases op <;> simp [Op.writes] at hwrites
    | _ => simp [Op.writes] at hwrites
  · obtain ⟨hphase,hseen⟩ := not_or.mp hwrites
    exact h.congr (apply_frame op w hphase) (apply_frame op w hseen)

lemma founded_throughout {w : World} {ls : List Op} (h : Founded w.store.keys)
    (hmade : ∀ t ∈ stepsOf w ls, (∃ ρ, Made ρ t.label) ∨ t.label.isOutside = true)
    (hidle : ∀ t ∈ stepsOf w ls, idleUnfounded t = false) :
    ∀ t ∈ stepsOf w ls, Founded t.pre.store.keys :=
  steps_invariant (P := fun w => Founded w.store.keys) h
    fun t ht hpre => hpre.step (hmade t ht) (hidle t ht)

/-- In every run from a new database a claim is made in a state that is reported as ready exactly
if the mode is still `auto` and a hook has left evidence; and evidence is there at every claim of
a run in which no step writes the idle phase without it. -/
theorem claim_ready_iff (U : Interp) (honest : Bool) (m : Machine) (es : Schedule) :
    (∀ t ∈ (bridge U honest).trace (.idle (.new m)) es, claimsWake t = true →
      (deliveryState t.pre.store.keys = .idleWakeEnabled ↔
        t.pre.store.keys.delivery = some .auto ∧ lifecycleObserved t.pre.store.keys = true)) ∧
    ((∀ t ∈ (bridge U honest).trace (.idle (.new m)) es, idleUnfounded t = false) →
      ∀ t ∈ (bridge U honest).trace (.idle (.new m)) es, claimsWake t = true →
        (deliveryState t.pre.store.keys = .idleWakeEnabled ↔
          t.pre.store.keys.delivery = some .auto)) := by
  refine ⟨fun t _ h => ready_iff (claimsWake_mayClaim h),?_⟩
  intro hidle t ht h
  have hmade := trace_made U honest (.new m) es
  obtain ⟨ls,htrace,-⟩ := (bridge U honest).exists_labels (.idle (.new m)) es
  have hm := claimsWake_mayClaim h
  have hphase : t.pre.store.keys.phase = some .idle := by
    simp only [mayClaim,Bool.and_eq_true,decide_eq_true_eq] at hm
    exact hm.1.1.1
  have hnew : Founded (World.new m).store.keys := ⟨fun hp => by cases hp⟩
  have hfounded := founded_throughout hnew (htrace ▸ hmade) (htrace ▸ hidle) t (htrace ▸ ht)
  rw [ready_iff hm]
  exact and_iff_left (hfounded.observed hphase)

/-- A bridge starts in mode `auto` and gets a message; `connect` assumes that its session is idle,
and its listener makes one pass. -/
def assumedIdle : Schedule :=
  .start 0 (.start {
    thread := sampleId.text
    ownerPid := some 7
    requested := some (.ok samplePeer)
    delivery := some .auto
    socket := str "/run/own.sock" }) :: List.replicate 20 (.step 0) ++
  [.start 1 (.accept (str "41:9") (.message sampleId.text (str "hello") .prompting [])),.step 1,
    .start 2 (.connectSeed .idle),.step 2,.start 3 (.serve 50 [false])] ++
  List.replicate 12 (.step 3)

/-- A wake is claimed although no hook has ever been seen. -/
theorem claim_without_evidence : ¬ ∀ (m : Machine) (es : Schedule),
    ∀ t ∈ (bridge .ascii true).trace (.idle (.new m)) es, claimsWake t = true →
      deliveryState t.pre.store.keys = .idleWakeEnabled := by
  intro h
  have hrun : ((bridge .ascii true).trace (.idle (.new sampleMachine)) assumedIdle).any
      (fun t => claimsWake t && deliveryState t.pre.store.keys = .awaitingLifecycleHook) = true := by
    decide +kernel
  obtain ⟨t,ht,hboth⟩ := List.any_eq_true.mp hrun
  simp only [Bool.and_eq_true,decide_eq_true_eq] at hboth
  have := h sampleMachine assumedIdle t ht hboth.1
  rw [hboth.2] at this
  cases this

end PeerChat.Wake
