import PeerChat.Bridge.Recovery
import PeerChat.Watch.Watchdog
import Mathlib.Tactic.Linarith

/-! How many spawns the budget of the watchdog allows. The attempts are counted in a window that
begins with the first record after the last window has ended; so two windows can meet within less
time than one of them lasts. -/
namespace PeerChat.Watch
open Python Wire

/-- One pass of a run. -/
structure Watched where
  now : Seconds
  before : Keys
  after : Keys
  actions : List Action

/-- The passes over one bridge. -/
def watchRun (thread : Str) : Keys → List Sight → List Watched
  | _, [] => []
  | k, s::ss => ⟨s.now,k,(watchBridge thread s k).1,(watchBridge thread s k).2⟩ ::
      watchRun thread (watchBridge thread s k).1 ss

/-- The recovery commands and endpoints that have been spawned. -/
def spawns (ts : List Watched) : ℕ := (ts.flatMap (·.actions)).count .spawn

def Watched.resets (t : Watched) : Bool := .reset ∈ t.actions

/-- The window that the saved attempts are counted in. -/
def Keys.window (k : Keys) : Option Seconds := k.watch.map (·.windowStart)

/-- The pass begins a window. -/
def Watched.restarts (t : Watched) : Bool := t.after.window ≠ t.before.window

def during (a b : Seconds) (ts : List Watched) : List Watched :=
  ts.filter fun t => a ≤ t.now ∧ t.now ≤ b

@[simp] lemma spawns_nil : spawns [] = 0 := rfl

@[simp] lemma spawns_cons (t : Watched) (ts : List Watched) :
    spawns (t::ts) = t.actions.count .spawn + spawns ts := by
  simp [spawns]

/-! What one pass does to the saved attempts. -/

/-- The attempts that are left. -/
def room (state : WatchState) : ℕ := MAX_ATTEMPTS-state.attempts

/-- Windows begin at times of the clock. -/
def Keys.Timed (k : Keys) : Prop := ∀ state, k.watch = some state → 0 ≤ state.windowStart

/-- A pass saves nothing and spawns nothing; or it saves a state of the present window, in which a
spawn has used one of the attempts that were left. -/
def Spends (s : Sight) (k : Keys) (r : Keys × List Action) : Prop :=
  (r.1.watch = k.watch ∧ r.2.count .spawn = 0) ∨
  ∃ state, r.1.watch = some state ∧
    state.windowStart = (watchState k.watch s.now).windowStart ∧
    (.reset ∉ r.2 → r.2.count .spawn + room state ≤ room (watchState k.watch s.now))

/-- The put leaves the saved state. -/
def Put.KeepsWatch (put : Put) : Prop := ∀ k, (put k).watch = k.watch

lemma foldl_keepsWatch {puts : List Put} (h : ∀ put ∈ puts, put.KeepsWatch) (k : Keys) :
    (puts.foldl (fun k put => put k) k).watch = k.watch := by
  induction puts generalizing k with
  | nil => rfl
  | cons put puts ih =>
    rw [List.foldl_cons,ih fun p hp => h p (List.mem_cons_of_mem _ hp)]
    exact h put (List.mem_cons_self ..) k

/-- A record fails before it has saved the state, or it has saved it. -/
lemma record_watch (committed : ℕ) (state : WatchState) {puts : List Put}
    (h : ∀ put ∈ puts, put.KeepsWatch) (k : Keys) :
    (record committed (putWatch state :: puts) k = (k,false)) ∨
      (record committed (putWatch state :: puts) k).1.watch = some state := by
  cases committed with
  | zero => exact Or.inl rfl
  | succ n =>
    right
    unfold record
    rw [List.take_succ_cons,List.foldl_cons]
    exact foldl_keepsWatch (fun p hp => h p (List.mem_of_mem_take hp)) _

lemma keepsWatch_nil : ∀ put ∈ ([] : List Put), put.KeepsWatch := by
  intro put h
  cases h

lemma keepsWatch_restoreError (error : Option Str) :
    ∀ put ∈ [putRestoreError error], put.KeepsWatch := by
  intro put h k
  obtain rfl := List.mem_singleton.mp h
  rfl

lemma keepsWatch_recoveryEvent (event : RecoveryEvent) :
    ∀ put ∈ [putRecoveryEvent event], put.KeepsWatch := by
  intro put h k
  obtain rfl := List.mem_singleton.mp h
  rfl

section
variable {s : Sight} {k : Keys}

/-- A record of the present window that spends nothing. -/
lemma spends_record {state : WatchState} {puts : List Put} (h : ∀ put ∈ puts, put.KeepsWatch)
    (hwindow : state.windowStart = (watchState k.watch s.now).windowStart)
    (hroom : room state ≤ room (watchState k.watch s.now)) {actions : List Action}
    (hactions : actions.count .spawn = 0) :
    Spends s k ((record s.firstPuts (putWatch state :: puts) k).1,actions) := by
  rcases record_watch s.firstPuts state h k with hnone | hsome
  · left
    rw [hnone]
    exact ⟨rfl,hactions⟩
  · right
    refine ⟨state,hsome,hwindow,fun _ => ?_⟩
    dsimp only
    omega

/-- A budget that is not exhausted leaves room for an attempt. -/
lemma attempts_lt {state : WatchState} (htime : 0 ≤ state.windowStart)
    (h : truthy (budgetExhausted state) = none) : state.attempts < MAX_ATTEMPTS := by
  by_contra hge
  have hspent : budgetExhausted state = some (state.windowStart+WINDOW_S) := if_pos (by omega)
  have hne : state.windowStart+WINDOW_S ≠ 0 := by
    unfold WINDOW_S
    linarith
  rw [hspent,truthy,Option.filter_some,if_pos (by simpa using hne)] at h
  cases h

/-- An attempt is saved before the spawn, and what is saved afterwards keeps its count. -/
lemma spends_attempt {attempted ended : WatchState} {puts endPuts : List Put}
    (hputs : ∀ put ∈ puts, put.KeepsWatch) (hend : ∀ put ∈ endPuts, put.KeepsWatch)
    (hlt : (watchState k.watch s.now).attempts < MAX_ATTEMPTS)
    (hwindow : attempted.windowStart = (watchState k.watch s.now).windowStart)
    (hcount : attempted.attempts = (watchState k.watch s.now).attempts+1)
    (hsame : ended.windowStart = attempted.windowStart ∧ ended.attempts = attempted.attempts) :
    Spends s k (
      let (k,ok) := record s.firstPuts (putWatch attempted :: puts) k
      if ¬ ok then (k,[])
      else ((record s.secondPuts (putWatch ended :: endPuts) k).1,[.spawn])) := by
  rcases record_watch s.firstPuts attempted hputs k with hnone | hsome
  · left
    rw [hnone]
    simp
  · have hroom : ∀ state : WatchState, state.attempts = attempted.attempts →
        1+room state ≤ room (watchState k.watch s.now) := by
      intro state he
      unfold room
      omega
    right
    dsimp only
    split_ifs with hok
    · rcases record_watch s.secondPuts ended hend
          (record s.firstPuts (putWatch attempted :: puts) k).1 with hagain | hended
      · refine ⟨attempted,by rw [hagain]; exact hsome,hwindow,fun _ => ?_⟩
        exact hroom attempted rfl
      · refine ⟨ended,hended,hsame.1.trans hwindow,fun _ => ?_⟩
        exact hroom ended hsame.2
    · refine ⟨attempted,hsome,hwindow,fun _ => ?_⟩
      have hleft := hroom attempted rfl
      simp only [List.count_nil]
      omega

/-- A paused attempt keeps the count. -/
lemma spends_pause (paused : Seconds) : Spends s k
    ((record s.firstPuts [putWatch ((watchState k.watch s.now).pause paused)] k).1,[]) := by
  refine spends_record keepsWatch_nil ?_ ?_ ?_
  · rfl
  · exact le_rfl
  · rfl

lemma recover_spends (htime : 0 ≤ (watchState k.watch s.now).windowStart)
    (owner : Option Pid × Option Str) (reason : Str) :
    Spends s k (recover s (watchState k.watch s.now) owner reason k) := by
  unfold recover
  split
  · exact spends_pause _
  · rename_i hbudget
    have hlt := attempts_lt htime hbudget
    by_cases halive : alive s.later owner.1 owner.2 = true
    · rw [if_neg (by simpa using halive)]
      cases hfailure : s.command.failure with
      | none =>
        simp only [afterCommand,hfailure]
        exact spends_attempt (keepsWatch_recoveryEvent _) (keepsWatch_restoreError _) hlt rfl rfl
          ⟨rfl,rfl⟩
      | some error =>
        simp only [afterCommand,hfailure]
        refine spends_attempt (keepsWatch_recoveryEvent _) (keepsWatch_restoreError _) hlt rfl rfl ?_
        split_ifs
        · exact ⟨rfl,rfl⟩
        · exact ⟨rfl,rfl⟩
    · rw [if_pos (by simpa using halive)]
      refine spends_record keepsWatch_nil ?_ ?_ ?_
      · rfl
      · exact le_rfl
      · rfl

lemma keepEndpoint_spends (htime : 0 ≤ (watchState k.watch s.now).windowStart) :
    Spends s k (keepEndpoint s (watchState k.watch s.now) k) := by
  unfold keepEndpoint
  split
  · exact spends_pause _
  · rename_i hbudget
    have hlt := attempts_lt htime hbudget
    refine spends_attempt keepsWatch_nil keepsWatch_nil hlt rfl rfl ?_
    split
    · exact ⟨rfl,rfl⟩
    · exact ⟨rfl,rfl⟩

lemma spends_nothing : Spends s k (k,[]) := Or.inl ⟨rfl,rfl⟩

lemma watchLive_spends : Spends s k (watchLive s (watchState k.watch s.now) k) := by
  unfold watchLive
  dsimp only
  split_ifs with hstable hputs
  · left
    rw [hputs]
    exact ⟨rfl,rfl⟩
  · rcases record_watch s.firstPuts { watchState k.watch s.now with
      attempts := 0, nextAt := 0, lastResult := some .recovered, pausedUntil := none,
      lastError := none } (keepsWatch_restoreError none) k with hnone | hsome
    · left
      rw [hnone]
      exact ⟨rfl,rfl⟩
    · exact Or.inr ⟨_,hsome,rfl,fun hreset => absurd (List.mem_singleton.mpr rfl) hreset⟩
  · exact spends_nothing

lemma signalOld_spends : Spends s k (signalOld s (watchState k.watch s.now) k) := by
  unfold signalOld
  dsimp only
  split_ifs
  · refine spends_record keepsWatch_nil ?_ ?_ ?_
    · rfl
    · exact le_rfl
    · rfl
  · exact spends_nothing

lemma watchDead_spends (htime : 0 ≤ (watchState k.watch s.now).windowStart) (config : Config)
    (ownerLive : Bool) (replacement : Option Registered) :
    Spends s k (watchDead s config ownerLive replacement (watchState k.watch s.now) k) := by
  unfold watchDead
  split
  · exact spends_nothing
  · split
    · exact spends_nothing
    · cases replacement with
      | some row => exact recover_spends htime _ _
      | none =>
        dsimp only
        split
        · exact recover_spends htime _ _
        · exact keepEndpoint_spends htime

lemma watchBridge_spends (thread : Str) (htime : 0 ≤ (watchState k.watch s.now).windowStart) :
    Spends s k (watchBridge thread s k) := by
  unfold watchBridge
  split
  · exact spends_nothing
  · split
    · exact spends_nothing
    · rename_i config _
      split
      · exact spends_nothing
      · dsimp only
        generalize (if alive s.machine (some config.ownerPid) (some config.ownerIdentity) = true then
          none else findReplacement s.machine config s.sessions) = replacement
        split
        · exact signalOld_spends
        · split
          · exact watchLive_spends
          · exact watchDead_spends htime config _ replacement

end

/-! Windows. -/

lemma watchState_timed {k : Keys} (hk : k.Timed) {now : Seconds} (hnow : 0 ≤ now) :
    0 ≤ (watchState k.watch now).windowStart := by
  unfold watchState
  cases hw : k.watch with
  | none => exact hnow
  | some state =>
    dsimp only
    split_ifs
    · exact hnow
    · exact hk state hw

lemma watchBridge_timed (thread : Str) {s : Sight} {k : Keys} (hk : k.Timed) (hnow : 0 ≤ s.now) :
    (watchBridge thread s k).1.Timed := by
  have htime := watchState_timed hk hnow
  rcases watchBridge_spends thread htime with ⟨hsame,-⟩ | ⟨state,hstate,hwindow,-⟩
  · unfold Keys.Timed
    rw [hsame]
    exact hk
  · intro state' hstate'
    rw [hstate] at hstate'
    obtain rfl := Option.some.inj hstate'
    rw [hwindow]
    exact htime

/-- The state of a window that has not ended. -/
lemma watchState_open {state : WatchState} {now : Seconds} (h : now < state.windowStart+WINDOW_S) :
    watchState (some state) now = state := by
  unfold watchState
  exact if_neg (by linarith)

/-- The state that begins a window. -/
lemma watchState_begun {k : Keys} {now : Seconds}
    (h : ∀ state, k.watch = some state → state.windowStart+WINDOW_S ≤ now) :
    (watchState k.watch now).windowStart = now ∧ (watchState k.watch now).attempts = 0 := by
  unfold watchState
  cases hw : k.watch with
  | none => exact ⟨rfl,rfl⟩
  | some state =>
    dsimp only
    rw [if_pos (by have := h state hw; linarith)]
    exact ⟨rfl,rfl⟩

/-- The attempts that are left of the saved window. -/
def Keys.room (k : Keys) : ℕ := (k.watch.map Watch.room).getD 0

section
variable {thread : Str} {ss : List Sight}

/-- A run that begins no window spends what is left of the saved one. -/
lemma spawns_le_room {k : Keys} (hk : k.Timed) (hclock : ∀ s ∈ ss, 0 ≤ s.now)
    (hreset : ∀ t ∈ watchRun thread k ss, t.resets = false)
    (hwindow : ∀ t ∈ watchRun thread k ss, t.restarts = false) :
    spawns (watchRun thread k ss) ≤ k.room := by
  induction ss generalizing k with
  | nil => exact Nat.zero_le _
  | cons s ss ih =>
    have hnow := hclock s (by simp)
    have hfirst := hreset _ (List.mem_cons_self ..)
    have hstay := hwindow _ (List.mem_cons_self ..)
    have hrest := ih (watchBridge_timed thread hk hnow) (fun s hs => hclock s (by simp [hs]))
      (fun t ht => hreset t (List.mem_cons_of_mem _ ht))
      (fun t ht => hwindow t (List.mem_cons_of_mem _ ht))
    rw [watchRun,spawns_cons]
    rcases watchBridge_spends thread (watchState_timed hk hnow) with
      ⟨hsame,hnone⟩ | ⟨state,hstate,hstart,hspend⟩
    · unfold Keys.room at hrest ⊢
      rw [hsame] at hrest
      dsimp only
      omega
    · have hspend := hspend (by simpa [Watched.resets] using hfirst)
      simp only [Watched.restarts,Keys.window,hstate,Option.map_some,decide_eq_false_iff_not,
        not_not] at hstay
      obtain ⟨saved,hsaved,hsame⟩ := Option.map_eq_some_iff.mp hstay.symm
      -- an ended window would have been replaced
      have hopen : s.now < saved.windowStart+WINDOW_S := by
        by_contra hended
        have hover : ∀ state', k.watch = some state' → state'.windowStart+WINDOW_S ≤ s.now := by
          intro state' h'
          rw [hsaved] at h'
          obtain rfl := Option.some.inj h'
          linarith
        unfold WINDOW_S at hended
        rw [(watchState_begun hover).1] at hstart
        linarith
      rw [hsaved,watchState_open hopen] at hspend
      unfold Keys.room at hrest ⊢
      rw [hstate,Option.map_some,Option.getD_some] at hrest
      rw [hsaved,Option.map_some,Option.getD_some]
      dsimp only
      omega

/-- A window lasts for its length. -/
lemma no_restart {k : Keys} (hk : k.Timed) (hclock : ∀ s ∈ ss, 0 ≤ s.now) {saved : WatchState}
    (hsaved : k.watch = some saved) (hopen : ∀ s ∈ ss, s.now < saved.windowStart+WINDOW_S) :
    ∀ t ∈ watchRun thread k ss, t.restarts = false := by
  induction ss generalizing k saved with
  | nil => simp [watchRun]
  | cons s ss ih =>
    have hnow := hclock s (by simp)
    have hstate : ∃ state, (watchBridge thread s k).1.watch = some state ∧
        state.windowStart = saved.windowStart := by
      rcases watchBridge_spends thread (watchState_timed hk hnow) with
        ⟨hsame,-⟩ | ⟨state,hstate,hstart,-⟩
      · exact ⟨saved,hsame.trans hsaved,rfl⟩
      · rw [hsaved,watchState_open (hopen s (by simp))] at hstart
        exact ⟨state,hstate,hstart⟩
    obtain ⟨state,hstate,hstart⟩ := hstate
    intro t ht
    rcases List.mem_cons.mp ht with rfl | ht
    · simp [Watched.restarts,Keys.window,hstate,hsaved,hstart]
    · refine ih (watchBridge_timed thread hk hnow) (fun s hs => hclock s (by simp [hs])) hstate ?_ t ht
      intro s' hs'
      rw [hstart]
      exact hopen s' (by simp [hs'])

/-- Passes within less than the length of a window meet at most two windows; and one, if no window
begins after a spawn. -/
lemma spawns_le {k : Keys} (hk : k.Timed) (hclock : ∀ s ∈ ss, 0 ≤ s.now) {a b : Seconds}
    (hlen : b-a < WINDOW_S) (htimes : ∀ s ∈ ss, a ≤ s.now ∧ s.now ≤ b)
    (hreset : ∀ t ∈ watchRun thread k ss, t.resets = false) :
    spawns (watchRun thread k ss) ≤ k.room+MAX_ATTEMPTS ∧
      ((∀ xs t ys, watchRun thread k ss = xs ++ t :: ys → t.restarts = true → spawns xs = 0) →
        spawns (watchRun thread k ss) ≤ MAX_ATTEMPTS) := by
  have hroom : ∀ k : Keys, k.room ≤ MAX_ATTEMPTS := by
    intro k
    unfold Keys.room
    cases k.watch with
    | none => exact Nat.zero_le _
    | some state => exact Nat.sub_le _ _
  induction ss generalizing k with
  | nil => simp [watchRun]
  | cons s ss ih =>
    have hnow := hclock s (by simp)
    have hfirst := hreset _ (List.mem_cons_self ..)
    have hk' := watchBridge_timed thread hk hnow
    have hclock' : ∀ s ∈ ss, 0 ≤ s.now := fun s hs => hclock s (by simp [hs])
    have htimes' : ∀ s ∈ ss, a ≤ s.now ∧ s.now ≤ b := fun s hs => htimes s (by simp [hs])
    have hreset' := fun t (ht : t ∈ watchRun thread (watchBridge thread s k).1 ss) =>
      hreset t (List.mem_cons_of_mem _ ht)
    obtain ⟨htwo,hone⟩ := ih hk' hclock' htimes' hreset'
    let pass : Watched := ⟨s.now,k,(watchBridge thread s k).1,(watchBridge thread s k).2⟩
    -- what comes before the first spawn can be left out
    have htail : (watchBridge thread s k).2.count .spawn = 0 →
        (∀ xs t ys, watchRun thread k (s::ss) = xs ++ t :: ys → t.restarts = true → spawns xs = 0) →
        spawns (watchRun thread (watchBridge thread s k).1 ss) ≤ MAX_ATTEMPTS := by
      intro hnone hcond
      refine hone fun xs t ys hcut hrestart => ?_
      have hall := hcond (pass::xs) t ys (congrArg (List.cons pass) hcut) hrestart
      rw [spawns_cons] at hall
      omega
    rw [watchRun,spawns_cons]
    dsimp only
    rcases watchBridge_spends thread (watchState_timed hk hnow) with
      ⟨hsame,hnone⟩ | ⟨state,hstate,hstart,hspend⟩
    · have hsameRoom : (watchBridge thread s k).1.room = k.room := by
        unfold Keys.room
        rw [hsame]
      rw [hsameRoom] at htwo
      refine ⟨by omega,fun hcond => ?_⟩
      have hle := htail hnone hcond
      omega
    · have hspend := hspend (by simpa [Watched.resets] using hfirst)
      have hnewRoom : (watchBridge thread s k).1.room = room state := by
        unfold Keys.room
        rw [hstate]
        rfl
      by_cases hopen : ∃ saved, k.watch = some saved ∧ s.now < saved.windowStart+WINDOW_S
      · obtain ⟨saved,hsaved,hlt⟩ := hopen
        rw [hsaved,watchState_open hlt] at hspend
        have hsavedRoom : k.room = room saved := by
          unfold Keys.room
          rw [hsaved]
          rfl
        refine ⟨by omega,fun hcond => ?_⟩
        by_cases hspawn : (watchBridge thread s k).2.count .spawn = 0
        · have hle := htail hspawn hcond
          omega
        · -- no window begins any more
          have hquiet : ∀ t ∈ watchRun thread (watchBridge thread s k).1 ss, t.restarts = false := by
            intro t ht
            by_contra hrestart
            obtain ⟨xs,ys,hcut⟩ := List.append_of_mem ht
            have hall := hcond (pass::xs) t ys (congrArg (List.cons pass) hcut)
              (by simpa using hrestart)
            rw [spawns_cons] at hall
            have hpass : pass.actions = (watchBridge thread s k).2 := rfl
            rw [hpass] at hall
            omega
          have hle := spawns_le_room hk' hclock' hreset' hquiet
          have hmax := hroom k
          omega
      · -- the pass begins a window, which lasts to the end
        have hover : ∀ saved, k.watch = some saved → saved.windowStart+WINDOW_S ≤ s.now := by
          intro saved hsaved
          by_contra hlt
          exact hopen ⟨saved,hsaved,by linarith⟩
        have hbegun := watchState_begun hover
        have hlasts : ∀ s' ∈ ss, s'.now < state.windowStart+WINDOW_S := by
          intro s' hs'
          have ha := (htimes s (by simp)).1
          have hb := (htimes' s' hs').2
          rw [hstart,hbegun.1]
          linarith
        have hquiet : ∀ t ∈ watchRun thread _ ss, t.restarts = false :=
          no_restart hk' hclock' hstate hlasts
        have hle := spawns_le_room hk' hclock' hreset' hquiet
        have hfresh : room (watchState k.watch s.now) = MAX_ATTEMPTS := by
          unfold room
          rw [hbegun.2]
          rfl
        refine ⟨by omega,fun _ => by omega⟩

end

/-! Intervals. -/

lemma watchRun_now (thread : Str) (k : Keys) (ss : List Sight) :
    (watchRun thread k ss).map (·.now) = ss.map (·.now) := by
  induction ss generalizing k with
  | nil => rfl
  | cons s ss ih => simp [watchRun,ih]

/-- On a clock that does not go back, an interval is a part of the run. -/
lemma during_eq (thread : Str) {ss : List Sight} (hsorted : ss.Pairwise fun s t => s.now ≤ t.now)
    (hclock : ∀ s ∈ ss, 0 ≤ s.now) {k : Keys} (hk : k.Timed) (a b : Seconds) :
    ∃ k' ss', Keys.Timed k' ∧ (∀ s ∈ ss', 0 ≤ s.now) ∧ (∀ s ∈ ss', a ≤ s.now ∧ s.now ≤ b) ∧
      during a b (watchRun thread k ss) = watchRun thread k' ss' ∧
      (ss.all (fun s => a ≤ s.now) = true → k' = k) := by
  induction ss generalizing k with
  | nil => exact ⟨k,[],hk,by simp,by simp,rfl,fun _ => rfl⟩
  | cons s ss ih =>
    obtain ⟨hle,hsorted'⟩ := List.pairwise_cons.mp hsorted
    have hnow := hclock s (by simp)
    obtain ⟨k',ss',hk',hclock',htimes,heq,hstart⟩ := ih hsorted' (fun s hs => hclock s (by simp [hs]))
      (watchBridge_timed thread hk hnow)
    by_cases ha : a ≤ s.now
    · have hall : ss.all (fun s => a ≤ s.now) = true := by
        rw [List.all_eq_true]
        intro t ht
        simpa using ha.trans (hle t ht)
      by_cases hb : s.now ≤ b
      · refine ⟨k,s::ss',hk,?_,?_,?_,fun _ => rfl⟩
        · intro t ht
          rcases List.mem_cons.mp ht with rfl | ht
          · exact hnow
          · exact hclock' t ht
        · intro t ht
          rcases List.mem_cons.mp ht with rfl | ht
          · exact ⟨ha,hb⟩
          · exact htimes t ht
        · obtain rfl := hstart hall
          unfold during at heq ⊢
          rw [watchRun,List.filter_cons_of_pos (by simp [ha,hb]),heq]
          rfl
      · refine ⟨k,[],hk,by simp,by simp,?_,fun _ => rfl⟩
        change List.filter _ _ = []
        rw [List.filter_eq_nil_iff]
        intro t ht hin
        have hmem : t.now ∈ (s::ss).map (·.now) := by
          rw [← watchRun_now thread k]
          exact List.mem_map_of_mem ht
        obtain ⟨s',hs',hsame⟩ := List.mem_map.mp hmem
        have hlater : s.now ≤ t.now := by
          rw [← hsame]
          rcases List.mem_cons.mp hs' with rfl | hs'
          · exact le_rfl
          · exact hle s' hs'
        simp only [decide_eq_true_eq] at hin
        exact hb (hlater.trans hin.2)
    · refine ⟨k',ss',hk',hclock',htimes,?_,?_⟩
      · rw [← heq]
        unfold during
        rw [watchRun,List.filter_cons_of_neg (by simp [ha])]
      · intro hall
        rw [List.all_eq_true] at hall
        exact absurd (by simpa using hall s (by simp)) ha

/-- Any sequence of passes over a bridge on a clock that does not go back, with any liveness of
listeners and owners, any ends of commands and any failures of records. An interval that is shorter
than a window, and in which the attempts are not reset, has at most twice `MAX_ATTEMPTS` spawns; and
at most `MAX_ATTEMPTS`, if no window begins in it after one of its spawns. -/
theorem spawns_during_le (thread : Str) {k : Keys} (hk : k.Timed) {ss : List Sight}
    (hclock : ∀ s ∈ ss, 0 ≤ s.now) (hsorted : ss.Pairwise fun s t => s.now ≤ t.now)
    {a b : Seconds} (hlen : b-a < WINDOW_S)
    (hreset : ∀ t ∈ during a b (watchRun thread k ss), t.resets = false) :
    spawns (during a b (watchRun thread k ss)) ≤ 2*MAX_ATTEMPTS ∧
    ((∀ xs t ys, during a b (watchRun thread k ss) = xs ++ t :: ys → t.restarts = true →
      spawns xs = 0) → spawns (during a b (watchRun thread k ss)) ≤ MAX_ATTEMPTS) := by
  obtain ⟨k',ss',hk',hclock',htimes,heq,-⟩ := during_eq thread hsorted hclock hk a b
  rw [heq] at hreset ⊢
  obtain ⟨htwo,hone⟩ := spawns_le hk' hclock' hlen htimes hreset
  refine ⟨?_,hone⟩
  have hroom : k'.room ≤ MAX_ATTEMPTS := by
    unfold Keys.room
    cases k'.watch with
    | none => exact Nat.zero_le _
    | some state => exact Nat.sub_le _ _
  omega

/-! A listener that dies again and again, late in a window. -/

/-- A pass that finds the listener dead; the recovery command ends with `code`. -/
def deadAt (now : Seconds) (code : ℤ) : Sight where
  now := now
  machine := sampleMachine
  later := sampleMachine
  config := some supervisedConfig
  command := .exited code []

def liveAt (now : Seconds) : Sight :=
  { deadAt now 0 with runtime := some ⟨41,some (str "41:9"),[],6⟩ }

/-- One restart, after which the listener is stable; then six that fail, and a pass when the window
of the first restart has ended. -/
def lateBurst : List Sight :=
  [deadAt 1000 0,liveAt 1030,deadAt 4000 1,deadAt 4010 1,deadAt 4030 1,deadAt 4070 1,deadAt 4150 1,
    deadAt 4310 1,deadAt 4600 1]

lemma lateBurst_sorted : lateBurst.Pairwise fun s t => s.now ≤ t.now := by decide +kernel

lemma lateBurst_clock : ∀ s ∈ lateBurst, 0 ≤ s.now := by decide +kernel

lemma timed_new : ({} : Keys).Timed := by
  intro state h
  cases h

/-- Up to the end of the window there are six. -/
theorem spawns_during_le_sample :
    spawns (during 4000 4599 (watchRun sampleConfig.thread {} lateBurst)) ≤ MAX_ATTEMPTS := by
  refine (spawns_during_le sampleConfig.thread timed_new lateBurst_clock lateBurst_sorted
    (by decide +kernel) (by decide +kernel)).2 ?_
  intro xs t ys hcut hrestart
  have hnone : (during 4000 4599 (watchRun sampleConfig.thread {} lateBurst)).all
      (fun t => !t.restarts) = true := by decide +kernel
  have ht := List.all_eq_true.mp hnone t (by rw [hcut]; simp)
  rw [hrestart] at ht
  cases ht

/-- Seven spawns within ten minutes. -/
theorem spawns_in_two_windows : ¬ ∀ (thread : Str) (k : Keys) (ss : List Sight), k.Timed →
    (∀ s ∈ ss, 0 ≤ s.now) → (ss.Pairwise fun s t => s.now ≤ t.now) → ∀ a b : Seconds,
    b-a < WINDOW_S → (∀ t ∈ during a b (watchRun thread k ss), t.resets = false) →
      spawns (during a b (watchRun thread k ss)) ≤ MAX_ATTEMPTS := by
  intro h
  have hle := h sampleConfig.thread {} lateBurst timed_new lateBurst_clock lateBurst_sorted 4000 4600
    (by decide +kernel) (by decide +kernel)
  revert hle
  decide +kernel

end PeerChat.Watch
