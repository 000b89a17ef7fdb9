import PeerChat.Observe.Snapshot
import PeerChat.Dispatch.Guarded
import PeerChat.Wake.Readiness

/-! The read-only status previews what the listener's correction of the phase will do. -/
namespace PeerChat
open Python Wire Interleaving

variable {m : Machine} {config : Config} {k : Meta} {null : MetaKey → Bool}

/-- The end of the turn that a correction finds. -/
def foundEnd (m : Machine) (config : Config) (k : Meta) : Option TurnEnd :=
  if k.phase = some .active ∨ k.phase = some .idle then
    k.hookSeen.bind (turnEndEvidence m config)
  else none

/-- The keys as that evidence corrects them. -/
def correctedKeys (evidence : TurnEnd) (k : Meta) : Meta :=
  { k with phase := some (endPhase evidence), lifecycleReconciled := some evidence }

/-- A correction puts no null. -/
lemma reconcileTurn_putsNull (config : Config) :
    (reconcileTurn config).Emits fun l => ∀ key, l.putsNull key = false :=
  reconcileTurn_emits (fun _ _ _ => rfl) (fun _ _ => rfl) config

/-- Evidence of the end of a turn counts as an observed hook. -/
lemma observed_of_evidence {seen : HookSeen} {evidence : TurnEnd} (hseen : k.hookSeen = some seen)
    (h : turnEndEvidence m config seen = some evidence) : lifecycleObserved k = true := by
  obtain ⟨hmatched,hactive⟩ := Wake.turnEndEvidence_seen h
  unfold lifecycleObserved
  rw [hseen]
  simp [hmatched,Wake.lifecycle_of_active hactive]

lemma reconcileTurn_none {w : World} (h : foundEnd w.machine config w.store.keys = none) :
    (reconcileTurn config).run w = w := by
  cases hphase : w.store.keys.phase with
  | none =>
    simp only [reconcileTurn,read_bind,Prog.run_act,apply_look,hphase]
    rfl
  | some phase =>
    simp only [reconcileTurn,read_bind,Prog.run_act,apply_look,hphase]
    split_ifs with hother
    · rfl
    · have hcorrects : w.store.keys.phase = some .active ∨ w.store.keys.phase = some .idle := by
        rw [hphase]
        cases phase <;> simp at hother ⊢
      rw [foundEnd,if_pos hcorrects] at h
      cases hseen : w.store.keys.hookSeen with
      | none =>
        simp only [Prog.run_act,apply_look,hseen]
        rfl
      | some seen =>
        rw [hseen,Option.bind_some] at h
        simp only [Prog.run_act,apply_look,hseen]
        split_ifs
        · rfl
        · simp only [Prog.run_act,apply_look,id,h]
          rfl

/-- A correction that runs alone applies the evidence that it finds. -/
lemma reconcileTurn_some {w : World} {evidence : TurnEnd}
    (h : foundEnd w.machine config w.store.keys = some evidence)
    (hconfig : w.store.keys.config = some config) (hstop : w.store.keys.stop = false) :
    ((reconcileTurn config).run w).store.keys = correctedKeys evidence w.store.keys := by
  unfold foundEnd at h
  split_ifs at h with hcorrects
  obtain ⟨seen,hseen,hevidence⟩ := Option.bind_eq_some_iff.mp h
  have hobserved := observed_of_evidence hseen hevidence
  obtain ⟨phase,hphase⟩ : ∃ phase, w.store.keys.phase = some phase := by
    cases hcorrects with
    | inl h => exact ⟨_,h⟩
    | inr h => exact ⟨_,h⟩
  have hmine : ¬ (phase ≠ .active ∧ phase ≠ .idle) := by
    rw [hphase] at hcorrects
    cases phase <;> simp at hcorrects ⊢
  simp only [reconcileTurn,read_bind,Prog.run_act,apply_look,hphase,if_neg hmine,hseen,hstop,hobserved,
    id,hevidence,not_true_eq_false,Bool.false_eq_true,or_self,if_false]
  split_ifs with hdone
  · -- the evidence has been applied before
    obtain ⟨rfl,hreconciled⟩ := hdone
    change w.store.keys = correctedKeys evidence w.store.keys
    unfold correctedKeys
    rw [← hphase,← hreconciled]
  · change reconcile w.machine ⟨config,phase,seen,evidence⟩ w.store.keys = _
    rw [reconcile,if_neg]
    · rfl
    · simp [hstop,hphase,hconfig,hseen,hevidence]

/-- The status of a running bridge corrects its rows in the same way. -/
lemma corrected_none (hconfig : k.config = some config)
    (h : foundEnd m config k = none) : (corrected m (k.rows null)).1 = k.rows null := by
  have hc : (k.rows null).config.get = some config := (Cell.get_of ..).trans hconfig
  have hp : (k.rows null).phase.get = k.phase := Cell.get_of ..
  have hs : (k.rows null).hookSeen.get = k.hookSeen := Cell.get_of ..
  simp only [corrected,hc,hp,hs]
  split_ifs with hrun hcorrects
  · rfl
  · cases hseen : k.hookSeen with
    | none => rfl
    | some seen =>
      rw [foundEnd,if_pos hcorrects,hseen,Option.bind_some] at h
      simp only [h]
  · cases k.hookSeen with
    | none => rfl
    | some seen =>
      cases (k.rows null).lifecycleReconciled.get with
      | none => rfl
      | some evidence =>
        simp only
        split_ifs <;> rfl

lemma corrected_some {evidence : TurnEnd} (hconfig : k.config = some config)
    (hrun : (runtimeState m (k.rows null)).1 = .running)
    (h : foundEnd m config k = some evidence) :
    (corrected m (k.rows null)).1 = ({ k with phase := some (endPhase evidence) } : Meta).rows null := by
  have hc : (k.rows null).config.get = some config := (Cell.get_of ..).trans hconfig
  have hp : (k.rows null).phase.get = k.phase := Cell.get_of ..
  unfold foundEnd at h
  split_ifs at h with hcorrects
  obtain ⟨seen,hseen,hevidence⟩ := Option.bind_eq_some_iff.mp h
  have hs : (k.rows null).hookSeen.get = some seen := (Cell.get_of ..).trans hseen
  simp only [corrected,hc,hp,hs,hrun,ne_eq,not_true_eq_false,if_false,if_pos hcorrects,hevidence]
  rfl

lemma runtimeState_running (hrun : (runtimeState m (k.rows null)).1 = .running) :
    ∃ config, k.config = some config ∧ k.stop = false := by
  unfold runtimeState at hrun
  have hc : (k.rows null).config.get = k.config := Cell.get_of ..
  rw [hc] at hrun
  cases hconfig : k.config with
  | none =>
    rw [hconfig] at hrun
    cases hrun
  | some config =>
    rw [hconfig] at hrun
    refine ⟨config,rfl,?_⟩
    cases hstop : k.stop with
    | false => rfl
    | true =>
      have hs : (k.rows null).stop.get = some true := congrArg some hstop
      simp only [hs,if_true] at hrun
      cases hrun

/-- Only the runtime record and the pending wake are ever null. -/
lemma nulled_keys {T : List (Step World Op)} {key : MetaKey} (h : nulled T key = true) :
    key = .runtime ∨ key = .wakePending := by
  obtain ⟨t,-,ht⟩ := List.any_eq_true.mp h
  unfold Op.putsNull at ht
  split at ht
  · exact Or.inr (of_decide_eq_true ht)
  · exact Or.inl (of_decide_eq_true ht)
  · cases ht

/-- The bridge after a schedule, and the keys that hold null in it unless they have a value. -/
def reached (U : Interp) (honest : Bool) (m : Machine) (es : Schedule) : World :=
  ((bridge U honest).final (.idle (.new m)) es).state

def reachedNulls (U : Interp) (honest : Bool) (m : Machine) (es : Schedule) : MetaKey → Bool :=
  nulled ((bridge U honest).trace (.idle (.new m)) es)

/-- The same after a correction that comes next. -/
def correctedNulls (U : Interp) (honest : Bool) (m : Machine) (es : Schedule)
    (config : Config) : MetaKey → Bool :=
  nulled ((bridge U honest).trace (.idle (.new m)) es ++
    (reconcileTurn config).steps (reached U honest m es))

lemma correctedNulls_eq (U : Interp) (honest : Bool) (m : Machine) (es : Schedule)
    (config : Config) : correctedNulls U honest m es config = reachedNulls U honest m es := by
  funext key
  unfold correctedNulls reachedNulls nulled
  rw [List.any_append]
  have hnone : ((reconcileTurn config).steps (reached U honest m es)).any (·.label.putsNull key) =
      false := by
    rw [List.any_eq_false]
    intro t ht
    rw [(reconcileTurn_putsNull config).steps _ t ht key]
    exact Bool.false_ne_true
  rw [hnone,Bool.or_false]

lemma storeGet_phase (hnull : null .phase = false) (k : Meta) :
    storeGet.get (k.rows null).phase (some .unknown) = some (k.phase.getD .unknown) := by
  unfold Meta.rows
  rw [hnull,Reader.get_of]
  cases k.phase <;> rfl

/-- The status changes nothing; and in every reachable state in which it reports a running bridge, it
reports the phase and the delivery state that the store has after a correction. -/
theorem snapshot_previews (U : Interp) (honest : Bool) (m : Machine) (es : Schedule) :
    (snapshot (reachedNulls U honest m es)).run (reached U honest m es) = reached U honest m es ∧
    (((snapshot (reachedNulls U honest m es)).value (reached U honest m es)).runtimeState = .running →
      ∃ config, (reached U honest m es).store.keys.config = some config ∧
        storeGet.get ((((reconcileTurn config).run (reached U honest m es)).store.keys.rows
            (correctedNulls U honest m es config)).phase) (some .unknown) =
          some ((snapshot (reachedNulls U honest m es)).value (reached U honest m es)).phase ∧
        deliveryStateBy storeGet (((reconcileTurn config).run (reached U honest m es)).store.keys.rows
            (correctedNulls U honest m es config)) =
          ((snapshot (reachedNulls U honest m es)).value
            (reached U honest m es)).deliveryConfigured) := by
  constructor
  · rfl
  · intro hrun
    rw [snapshot_value] at hrun ⊢
    simp only [correctedNulls_eq]
    generalize hnull : reachedNulls U honest m es = null at hrun ⊢
    have hkeys : ∀ key, null key = true → key = .runtime ∨ key = .wakePending := by
      intro key h
      rw [← hnull] at h
      exact nulled_keys h
    have hphase : null .phase = false := by
      cases h : null .phase with
      | false => rfl
      | true =>
        cases hkeys .phase h with
        | inl h => cases h
        | inr h => cases h
    generalize reached U honest m es = w at hrun ⊢
    obtain ⟨config,hconfig,hstop⟩ := runtimeState_running hrun
    refine ⟨config,hconfig,?_⟩
    rw [storeGet_phase hphase,deliveryStateBy_rows storeGet hkeys]
    change _ = some ((corrected w.machine (w.store.keys.rows null)).1.phase.get.getD .unknown) ∧
      _ = deliveryStateBy metaViewGet (corrected w.machine (w.store.keys.rows null)).1
    cases hfound : foundEnd w.machine config w.store.keys with
    | none =>
      rw [reconcileTurn_none hfound,corrected_none hconfig hfound,
        deliveryStateBy_rows metaViewGet hkeys]
      exact ⟨congrArg some (congrArg (Option.getD · _) (Cell.get_of _ _).symm),rfl⟩
    | some evidence =>
      rw [reconcileTurn_some hfound hconfig hstop,corrected_some hconfig hrun hfound,
        deliveryStateBy_rows metaViewGet hkeys]
      exact ⟨rfl,rfl⟩

/-! A turn has ended without its hook. -/

/-- The owner, the listener and the socket are there, and the rollout says that the turn is over. -/
def listeningMachine : Machine := { hookMachine with
  processIdentity := fun pid =>
    if pid = 41 then some (str "41:9") else if pid = 7 then some (str "7:1")
    else if pid = 50 then some (str "50:3") else none
  hookOwner := some 7
  latestEnd := fun _ _ => some ⟨true,some (str "t1"),0⟩ }

/-- A start, a listener that has begun, and a hook of the turn. -/
def listeningRun : Schedule :=
  .start 0 (.start {
    thread := sampleId.text
    ownerPid := some 7
    requested := some (.ok samplePeer)
    delivery := some .live
    socket := str "/run/own.sock" }) :: List.replicate 20 (.step 0) ++
  .start 1 (.serve 50 [false]) :: List.replicate 6 (.step 1) ++
  .start 2 (.deliver { sampleToolUse with turn := some (str "t1") }) :: List.replicate 8 (.step 2)

theorem snapshot_previews_interrupted : ∃ config,
    (reached .ascii false listeningMachine listeningRun).store.keys.config = some config ∧
    storeGet.get ((((reconcileTurn config).run
        (reached .ascii false listeningMachine listeningRun)).store.keys.rows
          (correctedNulls .ascii false listeningMachine listeningRun config)).phase) (some .unknown) =
      some .interrupted := by
  have hrun : ((snapshot (reachedNulls .ascii false listeningMachine listeningRun)).value
      (reached .ascii false listeningMachine listeningRun)).runtimeState = .running := by decide +kernel
  have hphase : ((snapshot (reachedNulls .ascii false listeningMachine listeningRun)).value
      (reached .ascii false listeningMachine listeningRun)).phase = .interrupted := by decide +kernel
  obtain ⟨config,hconfig,hafter,-⟩ :=
    (snapshot_previews .ascii false listeningMachine listeningRun).2 hrun
  rw [hphase] at hafter
  exact ⟨config,hconfig,hafter⟩

end PeerChat
