import PeerChat.Programs.Dispatch
import PeerChat.Wake.Release

/-! One run of `wake_idle` among acknowledgements and active hooks. The completion never brings a
cleared marker back; the record that follows the claim may. -/
namespace PeerChat
open Python Wire Interleaving

/-- The deletions of the marker by an acknowledgement. -/
def Op.clearsWake : Op → Bool
  | .inbox op => op.acknowledges
  | .key .dropWake => true
  | _ => false

/-- The producer's own accesses. -/
def Op.producesWake : Op → Bool
  | .inbox (.claimWake _) | .key (.recordWake _) => true
  | _ => false

namespace Wake

/-- Anything but another producer. -/
abbrev NoProducer (l : Op) : Prop := l.producesWake = false

/-- The marker is there, for this message. -/
def Held (id : Str) (k : Meta) : Prop := ∃ p, k.wakePending = some p ∧ p.id = id

/-- An acknowledgement deletes the marker of this message. -/
def Clears (id : Str) (t : Step World Op) : Prop :=
  t.label.clearsWake = true ∧ Held id t.pre.store.keys ∧ t.post.store.keys.wakePending = none

/-- The step makes the marker of this message present. -/
def Sets (id : Str) (t : Step World Op) : Prop :=
  ¬ Held id t.pre.store.keys ∧ Held id t.post.store.keys

/-- After an acknowledgement has deleted the marker, no step of the run makes it present. -/
def ClearIsFinal (id : Str) (t : List (Entry World Op)) : Prop :=
  t.Pairwise fun e f => Clears id e.step → f.own = true → ¬ Sets id f.step

/-- The last wake is this one, and has come further than `writing`. -/
def RecordedBefore (id : Str) (k : Meta) : Prop :=
  ∃ last, k.lastWake = some last ∧ last.id = id ∧ refused .writing last = true

/-- The message and the state of the last wake. -/
def lastState (k : Meta) : Option (Str × WakeState) := k.lastWake.map fun l => (l.id,l.state)

lemma lastState_congr {k k' : Meta} (h : k'.lastWake = k.lastWake) : lastState k' = lastState k := by
  rw [lastState,lastState,h]

lemma recordedBefore_congr {id : Str} {k k' : Meta} (h : lastState k' = lastState k) :
    RecordedBefore id k' ↔ RecordedBefore id k := by
  have key : ∀ k, RecordedBefore id k ↔ ∃ st, lastState k = some (id,st) ∧ 1 ≤ rank st := by
    intro k
    constructor
    · rintro ⟨last,hl,hid,hr⟩
      refine ⟨last.state,by simp [lastState,hl,hid],?_⟩
      rcases (refused_iff ..).mp hr with h | ⟨h,-⟩
      · exact h
      · cases h
    · rintro ⟨st,hl,hr⟩
      obtain ⟨last,hlast,heq⟩ := Option.map_eq_some_iff.mp hl
      cases heq
      exact ⟨last,hlast,rfl,(refused_iff ..).mpr (Or.inl hr)⟩
  rw [key,key,h]

lemma held_of_none {id : Str} {k : Meta} (h : k.wakePending = none) : ¬ Held id k := by
  rintro ⟨p,hp,-⟩
  rw [h] at hp
  cases hp

/-! Steps of others. -/

/-- An active hook leaves the marker and the last state alone, or releases the marker. -/
lemma activeHook_cases (now : Time) (payload : HookPayload) (k : Meta) :
    ((activeHook now payload k).wakePending = k.wakePending ∧
      lastState (activeHook now payload k) = lastState k) ∨
    k.wakePending ≠ none ∧ (activeHook now payload k).wakePending = none := by
  rcases activeHook_eq now payload k with heq | ⟨p,state,e,hp,hstate,heq⟩
  · rw [heq]
    exact Or.inl ⟨rfl,rfl⟩
  · rw [heq]
    rcases record_cases now p.id state e k with ⟨last,last',hl,-,-,hpend,hl',hid',hst⟩ |
        ⟨-,r,k₀,hrec,-,hr⟩
    · exact Or.inl ⟨hpend,by simp [lastState,hl,hl',hid',hst]⟩
    · have hprod : ¬ producing r.state = true := by
        rw [producing_iff,hr,hstate]
        omega
      exact Or.inr ⟨by simp [hp],by rw [hrec,settle,if_neg hprod]⟩

/-- A step of another process leaves the marker and the last state alone, or removes the marker,
and the last state with an acknowledgement stays as it was. -/
lemma foreign_cases {l : Op} (hl : NoProducer l) (w : World) :
    ((apply l w).store.keys.wakePending = w.store.keys.wakePending ∧
      lastState (apply l w).store.keys = lastState w.store.keys) ∨
    w.store.keys.wakePending ≠ none ∧ (apply l w).store.keys.wakePending = none ∧
      (l.clearsWake = true → lastState (apply l w).store.keys = lastState w.store.keys) := by
  rcases change l w with ⟨hlast,hp | hp | ⟨config,row,rfl,-,-⟩⟩ | ⟨marker,rfl,-⟩ | ⟨payload,rfl,hk⟩
  · exact Or.inl ⟨hp,lastState_congr hlast⟩
  · cases hn : w.store.keys.wakePending with
    | none => exact Or.inl ⟨hp,lastState_congr hlast⟩
    | some p => exact Or.inr ⟨by simp,hp,fun _ => lastState_congr hlast⟩
  · cases hl
  · cases hl
  · rw [hk]
    rcases activeHook_cases w.machine.now payload w.store.keys with h | ⟨hne,hn⟩
    · exact Or.inl h
    · exact Or.inr ⟨hne,hn,fun hc => by cases hc⟩

/-- Without a marker the others change nothing. -/
lemma drift_none {id : Str} {w w' : World} {t : List (Entry World Op)}
    (h : Drift NoProducer w t w') (hn : w.store.keys.wakePending = none) :
    w'.store.keys.wakePending = none ∧ lastState w'.store.keys = lastState w.store.keys ∧
      ∀ e ∈ t, ¬ Clears id e.step := by
  induction h with
  | refl => exact ⟨hn,rfl,by simp⟩
  | @step l w t w' hl _ ih =>
    rcases foreign_cases hl w with ⟨hp,hs⟩ | ⟨hne,-⟩
    · obtain ⟨hn',hs',hnot⟩ := ih (hp.trans hn)
      refine ⟨hn',hs'.trans hs,?_⟩
      intro e he
      rcases List.mem_cons.mp he with rfl | he
      · exact fun hc => held_of_none hn hc.2.1
      · exact hnot e he
    · exact absurd hn hne

/-- From the claim on, the others leave the marker, or remove it; an acknowledgement that removes
it leaves the last state as it was at the claim. -/
lemma drift_held {id : Str} {w w' : World} {t : List (Entry World Op)}
    (h : Drift NoProducer w t w') (hheld : Held id w.store.keys) :
    (Held id w'.store.keys ∧ lastState w'.store.keys = lastState w.store.keys ∧
      ∀ e ∈ t, ¬ Clears id e.step) ∨
    w'.store.keys.wakePending = none ∧ ((∃ e ∈ t, Clears id e.step) →
      lastState w'.store.keys = lastState w.store.keys) := by
  induction h with
  | refl => exact Or.inl ⟨hheld,rfl,by simp⟩
  | @step l w t w' hl hrest ih =>
    rcases foreign_cases hl w with ⟨hp,hs⟩ | ⟨-,hn,hack⟩
    · have hheld' : Held id (apply l w).store.keys := by
        obtain ⟨p,hpend,hid⟩ := hheld
        exact ⟨p,hp.trans hpend,hid⟩
      have hnot : ¬ Clears id ⟨l,w⟩ := fun hc => held_of_none hc.2.2 hheld'
      rcases ih hheld' with ⟨h1,h2,h3⟩ | ⟨h1,h2⟩
      · refine Or.inl ⟨h1,h2.trans hs,?_⟩
        intro e he
        rcases List.mem_cons.mp he with rfl | he
        · exact hnot
        · exact h3 e he
      · refine Or.inr ⟨h1,?_⟩
        rintro ⟨e,he,hc⟩
        rcases List.mem_cons.mp he with rfl | he
        · exact absurd hc hnot
        · exact (h2 ⟨e,he,hc⟩).trans hs
    · obtain ⟨hn',hs',hnot⟩ := @drift_none id _ _ _ hrest hn
      refine Or.inr ⟨hn',?_⟩
      rintro ⟨e,he,hc⟩
      rcases List.mem_cons.mp he with rfl | he
      · exact hs'.trans (hack hc.1)
      · exact absurd hc (hnot e he)

/-! The run's own steps. -/

/-- The run's view after its first record: the last wake is its own, and so is a marker. -/
structure Owned (id : Str) (k : Meta) : Prop where
  last : ∃ last, k.lastWake = some last ∧ last.id = id
  marker : ∀ p, k.wakePending = some p → p.id = id

lemma Owned.of_record (now : Time) (id : Str) (state : WakeState) (e : Evidence) {k : Meta}
    (h : ∀ p, k.wakePending = some p → p.id = id) : Owned id (record now id state e k) := by
  rcases record_cases now id state e k with ⟨last,last',-,hid,-,hp,hl',hid',-⟩ | ⟨-,r,k₀,hrec,hr,-⟩
  · exact ⟨⟨last',hl',hid'.trans hid⟩,fun p hpend => h p (hp ▸ hpend)⟩
  · rw [hrec]
    exact ⟨⟨r,rfl,hr⟩,fun p hpend => (settle_marker hpend).1.trans hr⟩

lemma Owned.foreign {id : Str} {l : Op} {w : World} (hl : NoProducer l)
    (h : Owned id w.store.keys) : Owned id (apply l w).store.keys := by
  obtain ⟨last,hlast,hid⟩ := h.last
  rcases change l w with ⟨hl',hp | hp | ⟨config,row,rfl,-,-⟩⟩ | ⟨marker,rfl,-⟩ | ⟨payload,rfl,hk⟩
  · exact ⟨⟨last,hl'.trans hlast,hid⟩,fun p hpend => h.marker p (hp ▸ hpend)⟩
  · exact ⟨⟨last,hl'.trans hlast,hid⟩,fun p hpend => by rw [hp] at hpend; cases hpend⟩
  · cases hl
  · cases hl
  · rcases activeHook_eq w.machine.now payload w.store.keys with heq | ⟨p,state,e,hp,-,heq⟩
    · rwa [hk,heq]
    · rw [hk,heq,h.marker p hp]
      exact .of_record _ _ _ _ h.marker

lemma Owned.drift {id : Str} {w w' : World} {t : List (Entry World Op)}
    (h : Drift NoProducer w t w') (ho : Owned id w.store.keys) : Owned id w'.store.keys :=
  h.keeps (P := fun w => Owned id w.store.keys) (fun _ _ hl ho => ho.foreign hl) ho

/-- A read sets no marker. -/
lemma not_sets_look (id : Str) (what : Look) (w : World) : ¬ Sets id ⟨.look what,w⟩ :=
  fun h => h.1 h.2

/-- A completion of an owned wake sets no marker. -/
lemma Owned.not_sets {id : Str} {w : World} (h : Owned id w.store.keys) {marker : Marker}
    (hid : marker.id = id) (hw : marker.status ≠ .writing) :
    ¬ Sets id ⟨.key (.recordWake marker),w⟩ := by
  rintro ⟨hnot,hheld⟩
  subst hid
  have hnone : w.store.keys.wakePending = none := by
    cases hp : w.store.keys.wakePending with
    | none => rfl
    | some p => exact absurd ⟨p,hp,h.marker p hp⟩ hnot
  refine held_of_none (k := recordWake w.machine.now marker w.store.keys) ?_ hheld
  obtain ⟨last,hlast,hid⟩ := h.last
  simp only [recordWake,hlast]
  split_ifs with h1 h2 h3
  · exact hnone
  · exact absurd hid h2.2
  · rw [record_decision _ _ _ _ rfl,hnone]
    split_ifs <;> rfl
  · -- the wake is decided, and the rule refuses the completion
    have hrank : rank last.state = 2 := by
      have := rank_le last.state
      have : ¬ rank last.state < 2 := fun hlt => h3 ⟨hw,hid,hlt,hnone⟩
      omega
    rcases record_cases w.machine.now marker.id marker.status
        { queueId := marker.queueId, detail := str "producer" } w.store.keys with
        ⟨-,-,-,-,-,hp,-⟩ | ⟨hno,-⟩
    · rw [hp,hnone]
    · have hprod := (producing_iff marker.status).mp (by simpa using (not_or.mp h1).2)
      have := hno last hlast hid
      rw [(refused_iff ..).mpr (Or.inl (by omega))] at this
      cases this

lemma recordWake_writing {id : Str} (hid : validId id = true) (now : Time) (k : Meta) :
    recordWake now ⟨id,.writing,none⟩ k =
      record now id .writing { detail := str "producer" } k := by
  simp only [recordWake,hid,producing,not_true_eq_false,or_self,if_false]
  split
  · rfl
  · simp

/-- The record after the claim sets the marker again, where it has been cleared, exactly if the
rule does not refuse it. -/
lemma sets_writing_iff {id : Str} {w : World} (hn : w.store.keys.wakePending = none) :
    Sets id ⟨.key (.recordWake ⟨id,.writing,none⟩),w⟩ ↔
      validId id = true ∧ ¬ RecordedBefore id w.store.keys := by
  have hpre : ¬ Held id w.store.keys := held_of_none hn
  by_cases hid : validId id = true
  · change ¬ Held id w.store.keys ∧ Held id (recordWake w.machine.now ⟨id,.writing,none⟩ w.store.keys) ↔ _
    rw [recordWake_writing hid]
    rcases record_cases w.machine.now id .writing { detail := str "producer" } w.store.keys with
        ⟨last,last',hl,hlid,href,hp,-⟩ | ⟨hno,r,k₀,hrec',hr,hst⟩
    · rw [hn] at hp
      constructor
      · exact fun h => absurd h.2 (held_of_none hp)
      · exact fun h => absurd ⟨last,hl,hlid,href⟩ h.2
    · have hheld : Held id (record w.machine.now id .writing { detail := str "producer" }
          w.store.keys) := by
        rw [hrec']
        exact ⟨⟨r.id,r.state,r.time,if truthy r.queueId then r.queueId else none⟩,
          by simp [settle,hst,producing],hr⟩
      refine ⟨fun _ => ⟨hid,?_⟩,fun _ => ⟨hpre,hheld⟩⟩
      rintro ⟨last,hl,hlid,href⟩
      rw [hno last hl hlid] at href
      cases href
  · constructor
    · rintro ⟨-,hheld⟩
      refine absurd hheld (held_of_none (k := recordWake _ _ w.store.keys) ?_)
      simp [recordWake,hid,hn]
    · exact fun h => absurd h.1 hid

lemma not_sets_invalid {id : Str} {w : World} (hid : ¬ validId id = true) {marker : Marker}
    (hm : marker.id = id) : ¬ Sets id ⟨.key (.recordWake marker),w⟩ := by
  subst hm
  rintro ⟨hnot,hheld⟩
  refine hnot ?_
  have heq : recordWake w.machine.now marker w.store.keys = w.store.keys := by
    simp [recordWake,hid]
  rw [← heq]
  exact hheld

/-- The claim leaves a marker of the claimed message, and the last wake as it was. -/
lemma claim_held {config : Config} {w : World} {row : MessageRow}
    (h : claimed w.machine config w.store = some row) :
    Held row.id (apply (Op.inbox (.claimWake config)) w).store.keys ∧
      lastState (apply (Op.inbox (.claimWake config)) w).store.keys = lastState w.store.keys := by
  rcases claim_keys w.machine config w.store with ⟨hn,-⟩ | ⟨row',hc,hk⟩
  · rw [h] at hn
    cases hn
  · rw [h] at hc
    cases hc
    change Held row.id (claim w.machine config w.store).keys ∧
      lastState (claim w.machine config w.store).keys = _
    rw [hk]
    exact ⟨⟨⟨row.id,.writing,w.machine.now,none⟩,rfl,rfl⟩,rfl⟩

/-- The completion of a wake is never another `writing`. -/
lemma completion_marker {id : Str} {outcome : QueueOutcome} {marker : Marker}
    (h : completion id outcome = some marker) : marker.id = id ∧ marker.status ≠ .writing := by
  cases outcome with
  | exited code stdout =>
    cases h
    refine ⟨rfl,?_⟩
    change (if code = 0 then WakeState.queued else .failed) ≠ .writing
    split_ifs <;> decide
  | raised exc =>
    simp only [completion] at h
    split_ifs at h
    cases h
    exact ⟨rfl,nofun⟩

/-- After its first record the run makes no marker present. -/
lemma completes_without_setting {id : Str} {w w' : World} {t : List (Entry World Op)} {b : Bool}
    (hw : validId id = true → Owned id w.store.keys)
    (h : Exec NoProducer (queueWake id) w t (.ret b) w') :
    ∀ e ∈ t, e.own = true → ¬ Sets id e.step := by
  obtain ⟨d,w₁,u,hd,rfl,h₁⟩ := h.act_done
  have hw₁ := fun hid => Owned.drift hd (hw hid)
  have hrest : ∀ e ∈ u, e.own = true → ¬ Sets id e.step := by
    simp only [Prog.bind] at h₁
    cases hm : completion id w₁.machine.queue with
    | none =>
      simp only [hm,Prog.pure_eq] at h₁
      intro e he hown
      rw [(h₁.ret_done.2.own_eq e he).1] at hown
      cases hown
    | some marker =>
      simp only [hm] at h₁
      obtain ⟨d₁,w₂,u₁,hd₁,rfl,h₂⟩ := h₁.act_done
      obtain ⟨hid,hne⟩ := completion_marker hm
      intro e he hown
      rcases List.mem_append.mp he with he | he
      · rw [(hd₁.own_eq e he).1] at hown
        cases hown
      · rcases List.mem_cons.mp he with rfl | he
        · by_cases hv : validId id = true
          · exact ((hw₁ hv).drift hd₁).not_sets hid hne
          · exact not_sets_invalid hv hid
        · rw [(h₂.ret_done.2.own_eq e he).1] at hown
          cases hown
  intro e he hown
  rcases List.mem_append.mp he with he | he
  · rw [(hd.own_eq e he).1] at hown
    cases hown
  · rcases List.mem_cons.mp he with rfl | he
    · exact not_sets_look _ _ _
    · exact hrest e he hown

/-- In every complete run of `wake_idle`, among any steps but another producer's: no step of the
run makes a marker present that an acknowledgement has deleted, exactly if no acknowledgement
deletes it before the run's first record, or the last wake was this one before the claim and had
come further than `writing`. -/
theorem clear_is_final_iff {config : Config} {w w' : World} {t : List (Entry World Op)} {b : Bool}
    (h : Exec NoProducer (wakeIdle config) w t (.ret b) w') :
    ∃ d w₀ u, t = d ++ ⟨true,⟨.inbox (.claimWake config),w₀⟩⟩ :: u ∧ ownSteps d = [] ∧
      ∀ row, claimed w₀.machine config w₀.store = some row →
        (ClearIsFinal row.id u ↔
          ((∃ e ∈ u.takeWhile fun e => ¬ e.own, Clears row.id e.step) →
            validId row.id = true → RecordedBefore row.id w₀.store.keys)) := by
  obtain ⟨d,w₀,u,hd,rfl,h₁⟩ := h.act_done
  refine ⟨d,w₀,u,rfl,hd.ownSteps,?_⟩
  intro row hrow
  simp only [Prog.bind,hrow] at h₁
  obtain ⟨g,w₁,u₁,hg,rfl,h₂⟩ := h₁.act_done
  obtain ⟨hheld,hlast⟩ := claim_held hrow
  have hgap := drift_held hg hheld
  have hmine : ∀ p, w₁.store.keys.wakePending = some p → p.id = row.id := by
    intro p hp
    rcases hgap with ⟨⟨p',hp',hid⟩,-⟩ | ⟨hn,-⟩
    · rw [hp] at hp'
      cases hp'
      exact hid
    · rw [hn] at hp
      cases hp
  have howned : validId row.id = true → Owned row.id
      (apply (Op.key (.recordWake ⟨row.id,.writing,none⟩)) w₁).store.keys := by
    intro hid
    rw [apply_key_keys]
    change Owned row.id (recordWake w₁.machine.now ⟨row.id,.writing,none⟩ w₁.store.keys)
    rw [recordWake_writing hid]
    exact .of_record _ _ _ _ hmine
  have hrest := completes_without_setting howned h₂
  have htake : (g ++ ⟨true,⟨.key (.recordWake ⟨row.id,.writing,none⟩),w₁⟩⟩ :: u₁).takeWhile
      (fun e => ¬ e.own) = g := by
    rw [List.takeWhile_append_of_pos fun e he => by simp [(hg.own_eq e he).1]]
    simp
  rw [htake,ClearIsFinal,List.pairwise_append]
  constructor
  · rintro ⟨-,-,hcross⟩ ⟨e,he,hc⟩ hid
    have hns := hcross e he _ (List.mem_cons_self ..) hc rfl
    rcases hgap with ⟨-,-,hno⟩ | ⟨hn,hs⟩
    · exact absurd hc (hno e he)
    · by_contra hnot
      refine hns ((sets_writing_iff hn).mpr ⟨hid,?_⟩)
      rwa [recordedBefore_congr ((hs ⟨e,he,hc⟩).trans hlast)]
  · intro hcond
    refine ⟨?_,?_,?_⟩
    · -- the others' steps are not the run's own
      refine List.pairwise_of_forall_mem_list fun e _ f hf _ hown => ?_
      rw [(hg.own_eq f hf).1] at hown
      cases hown
    · rw [List.pairwise_cons]
      exact ⟨fun f hf _ => hrest f hf,List.pairwise_of_forall_mem_list fun e _ f hf _ => hrest f hf⟩
    · intro e he f hf hc hown
      rcases List.mem_cons.mp hf with rfl | hf
      · rcases hgap with ⟨-,-,hno⟩ | ⟨hn,hs⟩
        · exact absurd hc (hno e he)
        · rw [sets_writing_iff hn,recordedBefore_congr ((hs ⟨e,he,hc⟩).trans hlast)]
          exact fun h => h.2 (hcond ⟨e,he,hc⟩ h.1)
      · exact hrest f hf hown

/-- A new database with one message, on an idle session with wakes left. -/
def wakeable : World := after (World.new sampleMachine) (reclaimRun.take 3)

/-- The acknowledgement of the message. -/
def sampleAck : Op := .inbox (.ackById (str "41:9") sampleId.text)

/-- The claim of the message. -/
def sampleClaim : Op := .inbox (.claimWake sampleConfig)

lemma wakeable_claimed : ∃ row, claimed wakeable.machine sampleConfig wakeable.store = some row ∧
    row.id = sampleId.text := by
  have h : (claimed wakeable.machine sampleConfig wakeable.store).map (·.id) =
      some sampleId.text := by decide +kernel
  exact Option.map_eq_some_iff.mp h

lemma wakeIdle_claims {F : Op → Prop} {config : Config} {w w' : World} {row : MessageRow}
    {u : List (Entry World Op)} {b : Bool} (hrow : claimed w.machine config w.store = some row)
    (h : Exec F (.act (.key (.recordWake ⟨row.id,.writing,none⟩)) fun _ => queueWake row.id)
      (apply (Op.inbox (.claimWake config)) w) u (.ret b) w') :
    Exec F (wakeIdle config) w (⟨true,⟨.inbox (.claimWake config),w⟩⟩ :: u) (.ret b) w' := by
  refine .own ?_
  simp only [Prog.bind,hrow]
  exact h

/-- A run with the acknowledgement after the first record. -/
theorem clear_is_final_sample : ∃ u w', Exec NoProducer (wakeIdle sampleConfig) wakeable
    (⟨true,⟨sampleClaim,wakeable⟩⟩ :: u) (.ret true) w' ∧ (∃ e ∈ u, e.step.label = sampleAck) ∧
      ClearIsFinal sampleId.text u := by
  obtain ⟨row,hrow,hid⟩ := wakeable_claimed
  obtain ⟨u,w',hrun,hu⟩ : ∃ u w', Exec NoProducer (wakeIdle sampleConfig) wakeable
      (⟨true,⟨sampleClaim,wakeable⟩⟩ :: u) (.ret true) w' ∧
      ∃ w₁ w₂ v, u = ⟨true,⟨.key (.recordWake ⟨row.id,.writing,none⟩),w₁⟩⟩ ::
        ⟨false,⟨sampleAck,w₂⟩⟩ :: v := by
    exact ⟨_,_,wakeIdle_claims hrow (.own (.foreign rfl (.own (.own .refl)))),_,_,_,rfl⟩
  obtain ⟨w₁,w₂,v,rfl⟩ := hu
  obtain ⟨d,w₀,u,ht,hd,hiff⟩ := clear_is_final_iff hrun
  refine ⟨_,w',hrun,⟨⟨false,⟨sampleAck,w₂⟩⟩,by simp,rfl⟩,?_⟩
  cases d with
  | nil =>
    simp only [List.nil_append,List.cons.injEq,Entry.mk.injEq,Step.mk.injEq] at ht
    obtain ⟨⟨-,-,rfl⟩,rfl⟩ := ht
    rw [← hid,hiff row hrow]
    simp
  | cons e d =>
    simp only [List.cons_append,List.cons.injEq] at ht
    rw [← ht.1] at hd
    cases hd

/-- An acknowledgement between the claim and the record is undone by the record. -/
theorem cleared_marker_returns :
    ¬ ∀ (config : Config) (w w' : World) (t : List (Entry World Op)) (b : Bool),
      Exec (fun l => l.clearsWake = true ∨ ∃ payload, l = .key (.activeHook payload))
        (wakeIdle config) w t (.ret b) w' →
      ∀ d w₀ u row, t = d ++ ⟨true,⟨.inbox (.claimWake config),w₀⟩⟩ :: u →
        claimed w₀.machine config w₀.store = some row → ClearIsFinal row.id u := by
  intro h
  obtain ⟨row,hrow,hid⟩ := wakeable_claimed
  let w₁ := apply sampleClaim wakeable
  let w₂ := apply sampleAck w₁
  obtain ⟨v,w',hrun⟩ : ∃ v w', Exec
      (fun l => l.clearsWake = true ∨ ∃ payload, l = .key (.activeHook payload))
      (wakeIdle sampleConfig) wakeable (⟨true,⟨sampleClaim,wakeable⟩⟩ :: ⟨false,⟨sampleAck,w₁⟩⟩ ::
        ⟨true,⟨.key (.recordWake ⟨row.id,.writing,none⟩),w₂⟩⟩ :: v) (.ret true) w' := by
    exact ⟨_,_,wakeIdle_claims hrow (.foreign (Or.inl rfl) (.own (.own (.own .refl))))⟩
  have hfinal := h _ _ _ _ _ hrun [] wakeable _ row rfl hrow
  have hnone : w₂.store.keys.wakePending = none := by decide +kernel
  refine (List.pairwise_cons.mp hfinal).1 _ (List.mem_cons_self ..)
    ⟨rfl,(claim_held hrow).1,hnone⟩ rfl ((sets_writing_iff hnone).mpr ⟨?_,?_⟩)
  · rw [hid]
    decide +kernel
  · rintro ⟨last,hlast,-⟩
    have hno : w₂.store.keys.lastWake = none := by decide +kernel
    rw [hno] at hlast
    cases hlast

end Wake
end PeerChat
