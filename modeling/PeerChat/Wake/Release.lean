import PeerChat.Wake.Transitions
import PeerChat.Wire.RoundTrip

/-! The decision of a hook releases the wake marker, in every run whose claims take messages that
no hook has decided before. The marker and the history are kept coherent by everything but the
claim, which writes the marker past the transition rule. -/
namespace PeerChat.Wake
open Python Wire Interleaving

/-- The marker is never that of a decided wake. -/
structure Coherent (k : Meta) : Prop where
  undecided : ∀ p, k.wakePending = some p → decided k p.id = false

lemma Coherent.of_none {k : Meta} (h : k.wakePending = none) : Coherent k := by
  constructor
  intro p hp
  rw [h] at hp
  cases hp

lemma decided_congr {k k' : Meta} (h : k'.lastWake = k.lastWake) (id : Str) :
    decided k' id = decided k id := by rw [decided,decided,h]

/-- The transition rule keeps the two records coherent. -/
lemma Coherent.record {k : Meta} (h : Coherent k) (now : Time) (id : Str) (state : WakeState)
    (e : Evidence) : Coherent (record now id state e k) := by
  rcases record_cases now id state e k with ⟨last,last',hl,-,-,hp,hl',hid,hst⟩ | ⟨-,r,k₀,hrec,-,-⟩
  · constructor
    intro p hpend
    rw [hp] at hpend
    have hd := h.undecided p hpend
    simpa only [decided,hl,hl',Option.any_some,hid,hst] using hd
  · rw [hrec]
    constructor
    intro p hpend
    obtain ⟨hid,hprod⟩ := settle_marker hpend
    have := (producing_iff r.state).mp hprod
    simp only [decided,settle,Option.any_some,hid,decide_true,Bool.true_and,
      decide_eq_false_iff_not]
    omega

lemma Coherent.recordWake {k : Meta} (h : Coherent k) (now : Time) (marker : Marker) :
    Coherent (recordWake now marker k) := by
  rcases recordWake_eq now marker k with heq | ⟨state,e,heq⟩
  · rwa [heq]
  · rw [heq]
    exact h.record ..

lemma Coherent.activeHook {k : Meta} (h : Coherent k) (now : Time) (payload : HookPayload) :
    Coherent (activeHook now payload k) := by
  rcases activeHook_eq now payload k with heq | ⟨p,state,e,-,-,heq⟩
  · rwa [heq]
  · rw [heq]
    exact h.record ..

/-- A claim in this step takes a message whose wake is not decided. -/
def ClaimsUndecided (t : Step World Op) : Prop :=
  ∀ config row, t.label = .inbox (.claimWake config) →
    claimed t.pre.machine config t.pre.store = some row →
    decided t.pre.store.keys row.id = false

/-- An active hook in this step that finds a valid marker leaves none. -/
def Releases (t : Step World Op) : Prop :=
  ∀ payload p, t.label = .key (.activeHook payload) → payload.event.active = true →
    t.pre.store.keys.wakePending = some p → validId p.id = true →
    t.post.store.keys.wakePending = none

lemma Coherent.step {op : Op} {w : World} (h : Coherent w.store.keys)
    (hclaim : ClaimsUndecided ⟨op,w⟩) : Coherent (apply op w).store.keys := by
  rcases change op w with ⟨hl,hp | hp | ⟨config,row,hop,hc,hp⟩⟩ | ⟨marker,-,hk⟩ | ⟨payload,-,hk⟩
  · constructor
    intro p hpend
    rw [decided_congr hl]
    exact h.undecided p (hp ▸ hpend)
  · exact .of_none hp
  · constructor
    intro p hpend
    rw [hp] at hpend
    cases hpend
    rw [decided_congr hl]
    exact hclaim config row hop hc
  · rw [hk]
    exact h.recordWake ..
  · rw [hk]
    exact h.activeHook ..

lemma Coherent.releases {t : Step World Op} (h : Coherent t.pre.store.keys) : Releases t := by
  intro payload p hop hactive hp hid
  obtain ⟨op,w⟩ := t
  cases hop
  exact (activeHook_releases_iff w.machine.now hactive hp hid).mpr (h.undecided p hp)

lemma releases_of_coherent {w : World} {ls : List Op} (h : Coherent w.store.keys)
    (hclaims : ∀ t ∈ stepsOf w ls, ClaimsUndecided t) : ∀ t ∈ stepsOf w ls, Releases t := by
  induction ls generalizing w with
  | nil => simp [stepsOf]
  | cons l ls ih =>
    intro t ht
    rcases List.mem_cons.mp ht with rfl | ht
    · exact h.releases
    · have hl := hclaims ⟨l,w⟩ (List.mem_cons_self ..)
      exact ih (h.step hl) (fun t ht => hclaims t (List.mem_cons_of_mem _ ht)) t ht

/-- A claim of a decided wake sets a marker that no active hook releases. -/
lemma stuck_of_decided {t : Step World Op} (h : ¬ ClaimsUndecided t) (payload : HookPayload) :
    (apply (Op.key (.activeHook payload)) t.post).store.keys.wakePending ≠ none := by
  simp only [ClaimsUndecided,not_forall] at h
  obtain ⟨config,row,hop,hc,hd⟩ := h
  obtain ⟨op,w⟩ := t
  cases hop
  have hkeys : (apply (Op.inbox (.claimWake config)) w).store.keys =
      claimKeys w.machine.now row.id w.store.keys := by
    rcases claim_keys w.machine config w.store with ⟨hn,-⟩ | ⟨row',hc',hk⟩
    · rw [hc] at hn
      cases hn
    · rw [hc] at hc'
      cases hc'
      exact hk
  change (activeHook _ payload (apply (Op.inbox (.claimWake config)) w).store.keys).wakePending ≠ none
  rw [hkeys]
  have hp : (claimKeys w.machine.now row.id w.store.keys).wakePending =
      some ⟨row.id,.writing,w.machine.now,none⟩ := rfl
  by_cases hactive : payload.event.active = true
  · by_cases hid : validId row.id = true
    · intro hnone
      have hd' := (activeHook_releases_iff _ hactive hp hid).mp hnone
      exact hd hd'
    · simp [activeHook,hactive,hp,hid]
  · simp [activeHook,hactive,hp]

/-- In every run from a new database: if no claim takes a message whose wake `last_wake` already
has as decided, every active hook that finds a valid marker leaves none. A claim that does take
such a message leaves a marker that the next active hook keeps. -/
theorem decision_releases (m : Machine) (ls : List Op) :
    ((∀ t ∈ stepsOf (World.new m) ls, ClaimsUndecided t) →
      ∀ t ∈ stepsOf (World.new m) ls, Releases t) ∧
    ∀ t ∈ stepsOf (World.new m) ls, ¬ ClaimsUndecided t → ∀ payload,
      (apply (Op.key (.activeHook payload)) t.post).store.keys.wakePending ≠ none :=
  ⟨releases_of_coherent (.of_none rfl),fun _ _ h payload => stuck_of_decided h payload⟩

/-- An owner's prompt with a text of its own. -/
def samplePrompt : HookPayload where
  event := .userPromptSubmit
  sessionId := sampleConfig.thread

/-- One message is claimed, decided and, still unread, claimed again. -/
def reclaimRun : List Op := [
  .key (.putBudget .remaining .unlimited),
  .key (.putPhase .idle),
  .inbox (.accept (str "41:9") sampleId.text (str "hello") .prompting []),
  .inbox (.claimWake sampleConfig),
  .key (.activeHook samplePrompt),
  .inbox (.claimWake sampleConfig),
  .key (.activeHook samplePrompt)]

/-- The second decision leaves the marker of the second claim. -/
theorem reclaim_keeps_marker :
    ¬ ∀ t ∈ stepsOf (World.new sampleMachine) reclaimRun, Releases t := by
  intro h
  let w := after (World.new sampleMachine) (reclaimRun.take 6)
  have hmem : (⟨.key (.activeHook samplePrompt),w⟩ : Step World Op) ∈
      stepsOf (World.new sampleMachine) reclaimRun := by simp [reclaimRun,stepsOf,w]
  have hp : ∃ p, w.store.keys.wakePending = some p ∧ validId p.id = true := by
    have : (w.store.keys.wakePending.any fun p => validId p.id) = true := by decide +kernel
    exact (Option.any_eq_true ..).mp this
  obtain ⟨p,hp,hid⟩ := hp
  have hnone := h _ hmem samplePrompt p rfl rfl hp hid
  have hsome : (apply (Op.key (.activeHook samplePrompt)) w).store.keys.wakePending.isSome = true := by
    decide +kernel
  change (apply (Op.key (.activeHook samplePrompt)) w).store.keys.wakePending = none at hnone
  rw [hnone] at hsome
  cases hsome

end PeerChat.Wake
