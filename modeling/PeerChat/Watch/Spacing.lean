import PeerChat.Watch.Window

/-! How far apart spawns are. An attempt is committed before its spawn, with the time before which
there is no other; what passes record in the meantime leaves that time alone, so it holds across
crashes, ends of windows and changes of what is recovered. -/
namespace PeerChat.Watch
open Python Wire

/-- The pass has spawned. -/
def Watched.spawned (t : Watched) : Bool := Action.spawn ∈ t.actions

/-- The same pass, with this many puts committed after a spawn; with none, the watchdog dies right
after it. -/
def Sight.cut (s : Sight) (committed : ℕ) : Sight := { s with secondPuts := committed }

/-- A spawn in whichever branch: the attempt and its other puts are committed, then it happens, and
what is recorded of its end keeps the count, and below the budget the time of the next attempt. -/
def Attempts (s : Sight) (k : Keys) (r : Keys × List Action) : Prop :=
  ∃ (outcome : Outcome) (ended : WatchState) (puts endPuts : List Put),
    let attempted := (watchState k.watch s.now).attempt s.now outcome
    (∀ put ∈ puts, put.KeepsWatch) ∧ (∀ put ∈ endPuts, put.KeepsWatch) ∧
    puts.length < s.firstPuts ∧ ended.attempts = attempted.attempts ∧
    (ended.attempts < MAX_ATTEMPTS → ended.nextAt = attempted.nextAt) ∧
    r = ((record s.secondPuts (putWatch ended :: endPuts)
      (record s.firstPuts (putWatch attempted :: puts) k).1).1,[.spawn])

section
variable {s : Sight} {k : Keys}

/-- What follows the record of an attempt. -/
lemma attempts_of_spawn (outcome : Outcome) {ended : WatchState} {puts endPuts : List Put}
    {first : Keys × Bool}
    (hfirst : first = record s.firstPuts
      (putWatch ((watchState k.watch s.now).attempt s.now outcome) :: puts) k)
    (hputs : ∀ put ∈ puts, put.KeepsWatch) (hend : ∀ put ∈ endPuts, put.KeepsWatch)
    (hcount : ended.attempts = (watchState k.watch s.now).attempts+1)
    (hnext : ended.attempts < MAX_ATTEMPTS →
      ended.nextAt = s.now+backoffDelay ((watchState k.watch s.now).attempts+1))
    {r : Keys × List Action}
    (hr : r = if ¬ first.2 = true then (first.1,[])
      else ((record s.secondPuts (putWatch ended :: endPuts) first.1).1,[.spawn]))
    (hspawn : Action.spawn ∈ r.2) : Attempts s k r := by
  subst hfirst
  have hok : puts.length+1 ≤ s.firstPuts := by
    by_contra hfew
    have hno : (record s.firstPuts (putWatch ((watchState k.watch s.now).attempt s.now outcome) ::
        puts) k).2 = false := decide_eq_false hfew
    rw [hr,hno] at hspawn
    simp at hspawn
  have hyes : (record s.firstPuts (putWatch ((watchState k.watch s.now).attempt s.now outcome) ::
      puts) k).2 = true := decide_eq_true hok
  refine ⟨outcome,ended,puts,endPuts,hputs,hend,hok,hcount,hnext,?_⟩
  rw [hr,hyes]
  rfl

lemma recover_attempts (owner : Option Pid × Option Str) (reason : Str)
    (h : Action.spawn ∈ (recover s (watchState k.watch s.now) owner reason k).2) :
    Attempts s k (recover s (watchState k.watch s.now) owner reason k) := by
  unfold recover at h ⊢
  cases hbudget : truthy (budgetExhausted (watchState k.watch s.now)) with
  | some paused => simp [hbudget] at h
  | none =>
    simp only [hbudget] at h ⊢
    by_cases halive : alive s.later owner.1 owner.2 = true
    · rw [if_neg (not_not.mpr halive)] at h ⊢
      cases hfailure : s.command.failure with
      | none =>
        simp only [afterCommand,hfailure] at h ⊢
        exact attempts_of_spawn .attempting rfl (keepsWatch_recoveryEvent _)
          (keepsWatch_restoreError _) rfl (fun _ => rfl) rfl h
      | some error =>
        simp only [afterCommand,hfailure] at h ⊢
        refine attempts_of_spawn .attempting rfl (keepsWatch_recoveryEvent _)
          (keepsWatch_restoreError _) ?_ ?_ rfl h
        · dsimp only
          split_ifs <;> rfl
        · intro hlt
          dsimp only at hlt ⊢
          split_ifs at hlt ⊢ with hmax
          · exact absurd hlt (Nat.not_lt.mpr hmax)
          · rfl
    · simp [halive] at h

lemma keepEndpoint_attempts
    (h : Action.spawn ∈ (keepEndpoint s (watchState k.watch s.now) k).2) :
    Attempts s k (keepEndpoint s (watchState k.watch s.now) k) := by
  unfold keepEndpoint at h ⊢
  cases hbudget : truthy (budgetExhausted (watchState k.watch s.now)) with
  | some paused => simp [hbudget] at h
  | none =>
    simp only [hbudget] at h ⊢
    refine attempts_of_spawn .attemptingEndpoint rfl keepsWatch_nil keepsWatch_nil ?_ ?_ rfl h
    · split <;> rfl
    · intro _
      split <;> rfl

lemma watchLive_spawns (state : WatchState) : Action.spawn ∉ (watchLive s state k).2 := by
  unfold watchLive
  dsimp only
  split_ifs <;> simp

lemma signalOld_spawns (state : WatchState) : Action.spawn ∉ (signalOld s state k).2 := by
  unfold signalOld
  dsimp only
  split_ifs <;> simp

/-- What a pass comes to; it tries nothing before its time. -/
theorem watchBridge_cases (thread : Str) (s : Sight) (k : Keys) :
    watchBridge thread s k = (k,[]) ∨
    watchBridge thread s k = signalOld s (watchState k.watch s.now) k ∨
    watchBridge thread s k = watchLive s (watchState k.watch s.now) k ∨
    ¬ s.now < (watchState k.watch s.now).nextAt ∧
      ((∃ owner reason,
        watchBridge thread s k = recover s (watchState k.watch s.now) owner reason k) ∨
      watchBridge thread s k = keepEndpoint s (watchState k.watch s.now) k) := by
  have hdead : ∀ config ownerLive replacement,
      let r := watchDead s config ownerLive replacement (watchState k.watch s.now) k
      r = (k,[]) ∨ ¬ s.now < (watchState k.watch s.now).nextAt ∧
        ((∃ owner reason, r = recover s (watchState k.watch s.now) owner reason k) ∨
        r = keepEndpoint s (watchState k.watch s.now) k) := by
    intro config ownerLive replacement
    unfold watchDead
    split
    · exact Or.inl rfl
    · split
      · exact Or.inl rfl
      · rename_i htime
        refine Or.inr ⟨htime,?_⟩
        cases replacement with
        | some row => exact Or.inl ⟨_,_,rfl⟩
        | none =>
          dsimp only
          split
          · exact Or.inl ⟨_,_,rfl⟩
          · exact Or.inr rfl
  unfold watchBridge
  split
  · exact Or.inl rfl
  · split
    · exact Or.inl rfl
    · split
      · exact Or.inl rfl
      · rename_i config _ _
        dsimp only
        generalize (if alive s.machine (some config.ownerPid) (some config.ownerIdentity) = true then
          none else findReplacement s.machine config s.sessions) = replacement
        split
        · exact Or.inr (Or.inl rfl)
        · split
          · exact Or.inr (Or.inr (Or.inl rfl))
          · obtain h | h := hdead config _ replacement
            · exact Or.inl h
            · exact Or.inr (Or.inr (Or.inr h))

/-- A pass that spawns. -/
theorem watchBridge_attempts (thread : Str) (h : Action.spawn ∈ (watchBridge thread s k).2) :
    Attempts s k (watchBridge thread s k) := by
  obtain heq | heq | heq | ⟨-,⟨owner,reason,heq⟩ | heq⟩ := watchBridge_cases thread s k
  · rw [heq] at h
    cases h
  · rw [heq] at h
    exact absurd h (signalOld_spawns _)
  · rw [heq] at h
    exact absurd h (watchLive_spawns _)
  · rw [heq] at h ⊢
    exact recover_attempts owner reason h
  · rw [heq] at h ⊢
    exact keepEndpoint_attempts h

/-- The saved state of a committed record. -/
lemma record_saved {committed : ℕ} {state : WatchState} {puts : List Put}
    (h : ∀ put ∈ puts, put.KeepsWatch) (hlt : puts.length < committed) (k : Keys) :
    (record committed (putWatch state :: puts) k).1.watch = some state := by
  obtain hnone | hsome := record_watch committed state h k
  · have hflag : (record committed (putWatch state :: puts) k).2 = true := decide_eq_true hlt
    rw [hnone] at hflag
    cases hflag
  · exact hsome

/-- What a pass that spawns has saved: one attempt more, and below the budget the time before which
there is no other. -/
lemma spawn_saved {thread : Str} (h : Action.spawn ∈ (watchBridge thread s k).2) :
    ∃ state, (watchBridge thread s k).1.watch = some state ∧
      state.attempts = (watchState k.watch s.now).attempts+1 ∧
      (state.attempts < MAX_ATTEMPTS → state.nextAt = s.now+backoffDelay state.attempts) := by
  obtain ⟨outcome,ended,puts,endPuts,hputs,hend,hlt,hcount,hnext,heq⟩ := watchBridge_attempts thread h
  rw [heq]
  obtain hnone | hsome := record_watch s.secondPuts ended hend
    (record s.firstPuts
      (putWatch ((watchState k.watch s.now).attempt s.now outcome) :: puts) k).1
  · refine ⟨(watchState k.watch s.now).attempt s.now outcome,?_,rfl,fun _ => rfl⟩
    rw [hnone]
    exact record_saved hputs hlt k
  · refine ⟨ended,hsome,hcount,?_⟩
    intro hmax
    rw [hnext hmax,hcount]
    rfl

/-- How far a pass gets after a spawn does not change what it does. -/
lemma watchBridge_cut (thread : Str) (s : Sight) (k : Keys) (n : ℕ) :
    (watchBridge thread (s.cut n) k).2 = (watchBridge thread s k).2 := by
  have hrecover : ∀ state owner reason,
      (recover (s.cut n) state owner reason k).2 = (recover s state owner reason k).2 := by
    intro state owner reason
    unfold recover
    cases truthy (budgetExhausted state) with
    | some paused => rfl
    | none =>
      dsimp only [Sight.cut]
      by_cases halive : alive s.later owner.1 owner.2 = true
      · simp only [halive,not_true_eq_false,if_false]
        split <;> rfl
      · simp only [halive]
        rfl
  have hkeep : ∀ state, (keepEndpoint (s.cut n) state k).2 = (keepEndpoint s state k).2 := by
    intro state
    unfold keepEndpoint
    cases truthy (budgetExhausted state) with
    | some paused => rfl
    | none =>
      dsimp only [Sight.cut]
      split <;> rfl
  have hdead : ∀ config ownerLive replacement state,
      (watchDead (s.cut n) config ownerLive replacement state k).2 =
        (watchDead s config ownerLive replacement state k).2 := by
    intro config ownerLive replacement state
    have hnow : (s.cut n).now = s.now := rfl
    unfold watchDead
    simp only [hnow]
    by_cases hpaused : (truthy state.pausedUntil).any (s.now < ·) = true
    · simp only [hpaused,if_true]
    · by_cases htime : s.now < state.nextAt
      · simp only [hpaused,htime,if_true]
      · simp only [hpaused,htime,if_false]
        cases replacement with
        | some row => exact hrecover _ _ _
        | none =>
          cases ownerLive with
          | true => exact hrecover _ _ _
          | false => exact hkeep _
  have hlive : ∀ state, watchLive (s.cut n) state k = watchLive s state k := fun _ => rfl
  have hold : ∀ state, signalOld (s.cut n) state k = signalOld s state k := fun _ => rfl
  have hread : (s.cut n).readable = s.readable := rfl
  have hconfig : (s.cut n).config = s.config := rfl
  have hstop : (s.cut n).stop = s.stop := rfl
  have hruntime : (s.cut n).runtime = s.runtime := rfl
  have hmachine : (s.cut n).machine = s.machine := rfl
  have hsessions : (s.cut n).sessions = s.sessions := rfl
  have hnow : (s.cut n).now = s.now := rfl
  unfold watchBridge
  simp only [hlive,hold,hread,hconfig,hstop,hruntime,hmachine,hsessions,hnow]
  split
  · rfl
  · cases s.config with
    | none => rfl
    | some config =>
      dsimp only
      split
      · rfl
      · generalize (if alive s.machine (some config.ownerPid) (some config.ownerIdentity) = true then
          none else findReplacement s.machine config s.sessions) = replacement
        split
        · rfl
        · split
          · rfl
          · exact hdead _ _ _ _

/-- A spawn finds its attempt committed: the keys count it even if the watchdog dies right then. -/
theorem counted_before_spawn {thread : Str} (h : Action.spawn ∈ (watchBridge thread s k).2) :
    ∃ counted, (watchBridge thread (s.cut 0) k).1.watch = some counted ∧
      Action.spawn ∈ (watchBridge thread (s.cut 0) k).2 ∧ 0 < s.firstPuts ∧
      counted.attempts = (watchState k.watch s.now).attempts+1 ∧
      counted.lastAttempt = some s.now ∧
      counted.nextAt = s.now+backoffDelay counted.attempts := by
  have hcut : Action.spawn ∈ (watchBridge thread (s.cut 0) k).2 := by
    rw [watchBridge_cut]
    exact h
  obtain ⟨outcome,ended,puts,endPuts,hputs,-,hlt,-,-,heq⟩ := watchBridge_attempts thread hcut
  have hpos : 0 < s.firstPuts := Nat.zero_lt_of_lt hlt
  refine ⟨(watchState k.watch s.now).attempt s.now outcome,?_,hcut,hpos,rfl,rfl,rfl⟩
  rw [heq]
  exact record_saved hputs hlt k

/-! Between two spawns. -/

lemma watchState_nextAt (state : WatchState) (now : Seconds) :
    (watchState (some state) now).nextAt = state.nextAt := by
  unfold watchState
  dsimp only
  split_ifs <;> rfl

/-- Before the time of the next attempt a pass that resets nothing spawns nothing, and the time
stays. -/
theorem quiet (thread : Str) {state : WatchState} (hk : k.watch = some state)
    (htime : s.now < state.nextAt) (hreset : Action.reset ∉ (watchBridge thread s k).2) :
    Action.spawn ∉ (watchBridge thread s k).2 ∧
      ∃ state', (watchBridge thread s k).1.watch = some state' ∧ state'.nextAt = state.nextAt := by
  have hnext : (watchState k.watch s.now).nextAt = state.nextAt := by
    rw [hk]
    exact watchState_nextAt state s.now
  obtain heq | heq | heq | ⟨hlate,-⟩ := watchBridge_cases thread s k
  · rw [heq]
    exact ⟨List.not_mem_nil,state,hk,rfl⟩
  · rw [heq]
    refine ⟨signalOld_spawns _,?_⟩
    unfold signalOld
    dsimp only
    split_ifs
    · obtain hnone | hsome := record_watch s.firstPuts { watchState k.watch s.now with
        lastResult := some .signalledOldListener, lastAttempt := some s.now } keepsWatch_nil k
      · exact ⟨state,by rw [hnone]; exact hk,rfl⟩
      · exact ⟨_,hsome,hnext⟩
    · exact ⟨state,hk,rfl⟩
  · rw [heq] at hreset ⊢
    refine ⟨watchLive_spawns _,state,?_,rfl⟩
    unfold watchLive at hreset ⊢
    dsimp only at hreset ⊢
    split_ifs at hreset ⊢ with hstable hputs
    · rw [hputs]
      exact hk
    · simp at hreset
    · exact hk
  · rw [hnext] at hlate
    exact absurd htime hlate

end

/-- A run that resets nothing has no spawn before the time that is saved for the next attempt. -/
theorem no_spawn_before (thread : Str) {k : Keys} {state : WatchState} {ss : List Sight}
    (hk : k.watch = some state) (hsorted : ss.Pairwise fun s t => s.now ≤ t.now)
    {between after : List Watched} {u : Watched}
    (hrun : watchRun thread k ss = between ++ u :: after) (hu : u.spawned = true)
    (hreset : ∀ t ∈ between, t.resets = false) : state.nextAt ≤ u.now := by
  induction ss generalizing k state between with
  | nil => simp [watchRun] at hrun
  | cons s ss ih =>
    obtain ⟨hfirst,hsorted⟩ := List.pairwise_cons.mp hsorted
    rw [watchRun] at hrun
    by_cases htime : s.now < state.nextAt
    · cases between with
      | nil =>
        obtain ⟨rfl,-⟩ := List.cons.inj hrun
        have hspawn : Action.spawn ∈ (watchBridge thread s k).2 := of_decide_eq_true hu
        have hnoreset : Action.reset ∉ (watchBridge thread s k).2 := by
          intro hmem
          obtain ⟨_,_,_,_,_,_,_,_,_,heq⟩ := watchBridge_attempts thread hspawn
          rw [heq] at hmem
          simp at hmem
        exact absurd hspawn (quiet thread hk htime hnoreset).1
      | cons t between =>
        obtain ⟨rfl,hrest⟩ := List.cons.inj hrun
        have hnoreset : Action.reset ∉ (watchBridge thread s k).2 :=
          of_decide_eq_false (hreset _ (List.mem_cons_self ..))
        obtain ⟨state',hk',hsame⟩ := (quiet thread hk htime hnoreset).2
        rw [← hsame]
        exact ih hk' hsorted hrest fun t ht => hreset t (List.mem_cons_of_mem _ ht)
    · have hmem : u ∈ watchRun thread k (s::ss) := by
        rw [watchRun,hrun]
        simp
      obtain ⟨s',hs',hnow⟩ : ∃ s' ∈ s::ss, s'.now = u.now := by
        have hmap := List.mem_map_of_mem hmem (f := (·.now))
        rw [watchRun_now] at hmap
        exact List.mem_map.mp hmap
      obtain rfl | hs' := List.mem_cons.mp hs'
      · rw [← hnow]
        exact not_lt.mp htime
      · have := hfirst s' hs'
        rw [← hnow]
        linarith

/-- The backoff survives crashes. After the spawn of an attempt below the budget there is none
before the backoff of its count has passed, unless the attempts have been reset; and every spawn,
from whatever keys, finds its attempt committed. -/
theorem backoff_crash_safe (thread : Str) (k : Keys) (ss : List Sight)
    (hsorted : ss.Pairwise fun s t => s.now ≤ t.now) :
    (∀ before t between u after, watchRun thread k ss = before ++ t :: (between ++ u :: after) →
      t.spawned = true → u.spawned = true → (∀ v ∈ between, v.resets = false) →
      ∃ state, t.after.watch = some state ∧ 0 < state.attempts ∧
        (state.attempts < MAX_ATTEMPTS → backoffDelay state.attempts ≤ u.now-t.now)) ∧
    ∀ (s : Sight) (k' : Keys), Action.spawn ∈ (watchBridge thread s k').2 →
      ∃ counted, (watchBridge thread (s.cut 0) k').1.watch = some counted ∧
        Action.spawn ∈ (watchBridge thread (s.cut 0) k').2 ∧ 0 < s.firstPuts ∧
        counted.attempts = (watchState k'.watch s.now).attempts+1 ∧
        counted.lastAttempt = some s.now ∧
        counted.nextAt = s.now+backoffDelay counted.attempts := by
  refine ⟨?_,fun s k' h => counted_before_spawn h⟩
  intro before t between u after hrun ht hu hreset
  induction ss generalizing k before with
  | nil => simp [watchRun] at hrun
  | cons s ss ih =>
    obtain ⟨-,hrest⟩ := List.pairwise_cons.mp hsorted
    rw [watchRun] at hrun
    cases before with
    | nil =>
      obtain ⟨rfl,htail⟩ := List.cons.inj (hrun.trans (List.nil_append _))
      obtain ⟨state,hsaved,hcount,hnext⟩ := spawn_saved (of_decide_eq_true ht)
      refine ⟨state,hsaved,by omega,?_⟩
      intro hmax
      have hwait := no_spawn_before thread hsaved hrest htail hu hreset
      rw [hnext hmax] at hwait
      dsimp only
      linarith
    | cons t' before =>
      obtain ⟨-,hrun⟩ := List.cons.inj hrun
      exact ih _ hrest before hrun

/-- In the late burst the second restart that fails waits ten seconds for the first. -/
theorem backoff_crash_safe_burst : ∃ before t u after,
    watchRun sampleConfig.thread {} lateBurst = before ++ t :: ([] ++ u :: after) ∧
      t.spawned = true ∧ u.spawned = true ∧
      ∃ state, t.after.watch = some state ∧ state.attempts = 1 ∧ backoffDelay 1 ≤ u.now-t.now := by
  let passes := watchRun sampleConfig.thread {} lateBurst
  have hcut : ∃ before t u after, passes = before ++ t :: ([] ++ u :: after) ∧
      t.spawned = true ∧ u.spawned = true ∧ t.after.watch.map (·.attempts) = some 1 :=
    ⟨passes.take 2,_,_,passes.drop 4,rfl,by decide +kernel⟩
  obtain ⟨before,t,u,after,hrun,ht,hu,hone⟩ := hcut
  obtain ⟨state,hsaved,-,hwait⟩ := (backoff_crash_safe sampleConfig.thread {} lateBurst
    lateBurst_sorted).1 before t [] u after hrun ht hu (fun v hv => absurd hv List.not_mem_nil)
  rw [hsaved] at hone
  have hattempts : state.attempts = 1 := Option.some.inj hone
  rw [hattempts] at hwait
  exact ⟨before,t,u,after,hrun,ht,hu,state,hsaved,hattempts,hwait (by decide)⟩

end PeerChat.Watch
