import Mathlib.Data.List.Infix
import PeerChat.Wake.Transitions
import PeerChat.Wire.RoundTrip

/-! The history of one wake. While `last_wake` keeps its id, whatever producers report and hooks
decide, in whatever order and by whatever clock, its record only grows and is counted at most
once as a failure and at most once as a decision. -/
namespace PeerChat.Wake
open Python Wire

/-- The states that `record_wake` takes from a producer. -/
def producerState (status : Str) : Option WakeState :=
  [.writing,.queued,.failed,.uncertain].find? fun state => WakeState.text state = status

/-- What `record_wake` reads of a marker; none where it returns before its transaction. -/
def Marker.ofJson (marker : Json) : Option Marker :=
  match (marker.get (str "id")).bind Json.str?, (marker.get (str "status")).bind Json.str? with
  | some id, some status => (producerState status).map fun state =>
      ⟨id,state,(marker.get (str "queue_id")).bind Json.str?⟩
  | _, _ => none

/-- What `active_hook` reads of a payload; none where it returns before its transaction. -/
def activePayload (payload : Json) : Option HookPayload :=
  match (payload.get (str "hook_event_name")).bind Json.str? with
  | some name => ([.userPromptSubmit,.postToolUse].find? fun event => event.text = name).map
      fun event =>
        { event := event
          sessionId := []
          turn := (payload.get (str "turn_id")).bind Json.str?
          prompt := (payload.get (str "prompt")).bind Json.str? }
  | none => none

/-- What touches the records of a wake; markers and payloads come as any JSON values. -/
inductive Call
  | recordWake (marker : Json)
  | activeHook (payload : Json)
  /-- The deletion of `wake_pending`. -/
  | dropPending

def Call.apply (now : Time) (k : Meta) : Call → Meta
  | .recordWake marker => match Marker.ofJson marker with
    | some m => Wake.recordWake now m k
    | none => k
  | .activeHook payload => match activePayload payload with
    | some p => Wake.activeHook now p k
    | none => k
  | .dropPending => { k with wakePending := none }

/-- The keys after some calls, each with the time that its clock shows. -/
def afterCalls (k : Meta) (calls : List (Time × Call)) : Meta :=
  calls.foldl (fun k c => c.2.apply c.1 k) k

@[simp] lemma afterCalls_nil (k : Meta) : afterCalls k [] = k := rfl

@[simp] lemma afterCalls_cons (k : Meta) (c : Time × Call) (calls : List (Time × Call)) :
    afterCalls k (c::calls) = afterCalls (c.2.apply c.1 k) calls := rfl

/-- `last_wake` is the record of this wake. -/
def Names (id : Str) (k : Meta) : Prop := ∃ r, k.lastWake = some r ∧ r.id = id

/-- What may become of a record while it keeps its id. -/
structure Grows (old new : LastWake) : Prop where
  rank : rank old.state ≤ rank new.state
  outcome : Wake.rank old.state = 2 → new.state = old.state
  time : old.time ≤ new.time
  queueId : truthy old.queueId → new.queueId = old.queueId

lemma Grows.refl (r : LastWake) : Grows r r := ⟨le_rfl,fun _ => rfl,le_rfl,fun _ => rfl⟩

lemma Grows.trans {a b c : LastWake} (hab : Grows a b) (hbc : Grows b c) : Grows a c := by
  constructor
  · exact hab.rank.trans hbc.rank
  · intro h
    have hb := hab.outcome h
    rw [← hb] at h
    rw [hbc.outcome h,hb]
  · exact hab.time.trans hbc.time
  · intro h
    have hb := hab.queueId h
    rw [← hb] at h
    rw [hbc.queueId h,hb]

/-- Counted as failed or uncertain. -/
def failures (k : Meta) : ℕ := k.wakeCounts.failed+k.wakeCounts.uncertain

/-- Counted as activated, raced or cancelled. -/
def decisions (k : Meta) : ℕ := k.wakeCounts.activated+k.wakeCounts.raced+k.wakeCounts.cancelled

/-- How often a wake may still be counted at a rank: once, until its record has come to it. -/
def room (n : ℕ) (id : Str) (k : Meta) : ℕ :=
  if k.lastWake.any fun r => r.id = id && n ≤ rank r.state then 0 else 1

lemma room_le (n : ℕ) (id : Str) (k : Meta) : room n id k ≤ 1 := by
  unfold room
  split_ifs
  · omega
  · omega

lemma room_some {id : Str} {k : Meta} {r : LastWake} (n : ℕ) (h : k.lastWake = some r)
    (hid : r.id = id) : room n id k = if n ≤ rank r.state then 0 else 1 := by
  simp [room,h,hid]

/-- A wake that `last_wake` does not name has not been counted at any rank. -/
lemma room_other {id : Str} {k : Meta} (n : ℕ) (h : ¬ Names id k) : room n id k = 1 := by
  unfold room
  rw [if_neg]
  intro hany
  obtain ⟨r,hr,hboth⟩ := (Option.any_eq_true ..).mp hany
  simp only [Bool.and_eq_true,decide_eq_true_eq] at hboth
  exact h ⟨r,hr,hboth.1⟩

/-- What one access does to the wake with an id that it leaves in `last_wake`. -/
structure Kept (id : Str) (k k' : Meta) : Prop where
  record : ∀ old, k.lastWake = some old → old.id = id →
    ∃ new, k'.lastWake = some new ∧ new.id = id ∧ Grows old new
  failures : failures k'+room 1 id k' ≤ failures k+room 1 id k
  decisions : decisions k'+room 2 id k' ≤ decisions k+room 2 id k

/-- The record and the counters are all that matters. -/
lemma Kept.of_eq (id : Str) {k k' : Meta} (hlast : k'.lastWake = k.lastWake)
    (hcounts : k'.wakeCounts = k.wakeCounts) : Kept id k k' := by
  constructor
  · intro old hold hid
    exact ⟨old,hlast.trans hold,hid,.refl old⟩
  · simp [Wake.failures,room,hlast,hcounts]
  · simp [Wake.decisions,room,hlast,hcounts]

lemma Kept.trans {id : Str} {a b c : Meta} (hab : Kept id a b) (hbc : Kept id b c) :
    Kept id a c := by
  constructor
  · intro old hold hid
    obtain ⟨mid,hmid,hmidid,hgrow⟩ := hab.record old hold hid
    obtain ⟨new,hnew,hnewid,hgrow'⟩ := hbc.record mid hmid hmidid
    exact ⟨new,hnew,hnewid,hgrow.trans hgrow'⟩
  · exact hbc.failures.trans hab.failures
  · exact hbc.decisions.trans hab.decisions

/-! One transition. -/

/-- Counting a state adds to the failures at rank one and to the decisions at rank two. -/
lemma bump_failures (state : WakeState) (k : Meta) :
    failures { k with wakeCounts := bump state k.wakeCounts } ≤
      failures k+(if rank state = 1 then 1 else 0) := by
  cases state <;> simp [failures,bump,rank] <;> omega

lemma bump_decisions (state : WakeState) (k : Meta) :
    decisions { k with wakeCounts := bump state k.wakeCounts } ≤
      decisions k+(if rank state = 2 then 1 else 0) := by
  cases state <;> simp [decisions,bump,rank] <;> omega

lemma settle_failures (r : LastWake) (k : Meta) : failures (settle r k) = failures k := rfl

lemma settle_decisions (r : LastWake) (k : Meta) : decisions (settle r k) = decisions k := rfl

lemma settle_room (n : ℕ) {id : Str} {r : LastWake} (k : Meta) (hid : r.id = id) :
    room n id (settle r k) = if n ≤ rank r.state then 0 else 1 := room_some n rfl hid

/-- The record of a wake that moves on grows, if the rule does not refuse it. -/
lemma advance_grows (now : Time) {state : WakeState} (e : Evidence) {last : LastWake}
    (h : ¬ refused state last = true) : Grows last (advance now state e last) := by
  rw [refused_iff] at h
  have hle := rank_le state
  constructor
  · change rank last.state ≤ rank state
    omega
  · intro h2
    omega
  · exact le_max_left ..
  · intro hq
    simp [advance,hq]

/-- A new record of a wake that `last_wake` did not name. -/
lemma fresh_kept (now : Time) (id : Str) (state : WakeState) (e : Evidence) {k : Meta}
    (h : ¬ Names id k) :
    Kept id k (settle (fresh now id state e) { k with wakeCounts := bump state k.wakeCounts }) := by
  have hf := bump_failures state k
  have hd := bump_decisions state k
  constructor
  · intro old hold hid
    exact absurd ⟨old,hold,hid⟩ h
  · rw [room_other 1 h,settle_room 1 _ (show (fresh now id state e).id = id from rfl),
      settle_failures]
    change _+(if 1 ≤ rank state then 0 else 1) ≤ _
    split_ifs at hf ⊢ <;> omega
  · rw [room_other 2 h,settle_room 2 _ (show (fresh now id state e).id = id from rfl),
      settle_decisions]
    change _+(if 2 ≤ rank state then 0 else 1) ≤ _
    split_ifs at hd ⊢ <;> omega

/-- The record of a wake that moves on. Its counter moves only where its rank does. -/
lemma advance_kept (now : Time) {state : WakeState} (e : Evidence) {k : Meta} {last : LastWake}
    (hlast : k.lastWake = some last) (h : ¬ refused state last = true) :
    Kept last.id k (settle (advance now state e last) { k with wakeCounts := (
      if rank last.state < rank state then bump state k.wakeCounts else k.wakeCounts) }) := by
  have hgrow := advance_grows now e h
  have hf := bump_failures state k
  have hd := bump_decisions state k
  have hle := hgrow.rank
  constructor
  · intro old hold _
    cases hlast.symm.trans hold
    exact ⟨_,rfl,rfl,hgrow⟩
  · rw [room_some 1 hlast rfl,
      settle_room 1 _ (show (advance now state e last).id = last.id from rfl),settle_failures]
    change rank last.state ≤ rank state at hle
    change _+(if 1 ≤ rank state then 0 else 1) ≤ _
    by_cases hlt : rank last.state < rank state
    · simp only [hlt,if_true]
      split_ifs at hf ⊢ <;> omega
    · simp only [hlt,if_false]
      change failures k+_ ≤ _
      split_ifs <;> omega
  · rw [room_some 2 hlast rfl,
      settle_room 2 _ (show (advance now state e last).id = last.id from rfl),settle_decisions]
    change rank last.state ≤ rank state at hle
    change _+(if 2 ≤ rank state then 0 else 1) ≤ _
    by_cases hlt : rank last.state < rank state
    · simp only [hlt,if_true]
      split_ifs at hd ⊢ <;> omega
    · simp only [hlt,if_false]
      change decisions k+_ ≤ _
      split_ifs <;> omega

/-- A queue id that fills in an unknown one. -/
lemma backfill_grows {last : LastWake} {q : Option Str} (h : ¬ truthy last.queueId = true) :
    Grows last { last with queueId := q } :=
  ⟨le_rfl,fun _ => rfl,le_rfl,fun hq => absurd hq h⟩

/-- What `_record` does to the wake that it is about. -/
theorem record_kept (now : Time) (id : Str) (state : WakeState) (e : Evidence) (k : Meta) :
    Kept id k (record now id state e k) := by
  unfold record
  cases hl : k.lastWake with
  | none =>
    refine fresh_kept now id state e ?_
    intro ⟨r,hr,_⟩
    rw [hl] at hr
    cases hr
  | some last =>
    dsimp only
    by_cases hid : last.id = id
    · subst hid
      rw [if_pos rfl]
      by_cases href : refused state last = true
      · rw [if_pos href]
        split_ifs with hq
        · constructor
          · intro old hold _
            cases hl.symm.trans hold
            exact ⟨_,rfl,rfl,backfill_grows (by simpa using hq.2)⟩
          · simp [failures,room,hl]
          · simp [decisions,room,hl]
        · exact .of_eq _ rfl rfl
      · rw [if_neg href]
        exact advance_kept now e hl href
    · rw [if_neg hid]
      refine fresh_kept now id state e ?_
      intro ⟨r,hr,hrid⟩
      cases hl.symm.trans hr
      exact hid hrid

/-- `_record` leaves the wake that it is about in `last_wake`. -/
lemma record_names (now : Time) (id : Str) (state : WakeState) (e : Evidence) (k : Meta) :
    Names id (record now id state e k) := by
  obtain ⟨last,last',-,hid,-,-,hlast',hid',-⟩ | ⟨-,r,k₀,heq,hid,-⟩ := record_cases now id state e k
  · exact ⟨last',hlast',hid'.trans hid⟩
  · rw [heq]
    exact ⟨r,rfl,hid⟩

/-- A call makes no transition, or one. -/
lemma Call.apply_cases (c : Call) (now : Time) (k : Meta) :
    (c.apply now k).lastWake = k.lastWake ∧ (c.apply now k).wakeCounts = k.wakeCounts ∨
    ∃ id state e, c.apply now k = record now id state e k := by
  cases c with
  | recordWake marker =>
    simp only [Call.apply]
    cases Marker.ofJson marker with
    | none => exact Or.inl ⟨rfl,rfl⟩
    | some m =>
      obtain h | ⟨state,e,h⟩ := recordWake_eq now m k
      · exact Or.inl ⟨congrArg Meta.lastWake h,congrArg Meta.wakeCounts h⟩
      · exact Or.inr ⟨m.id,state,e,h⟩
  | activeHook payload =>
    simp only [Call.apply]
    cases activePayload payload with
    | none => exact Or.inl ⟨rfl,rfl⟩
    | some p =>
      obtain h | ⟨pending,state,e,-,-,h⟩ := activeHook_eq now p k
      · exact Or.inl ⟨congrArg Meta.lastWake h,congrArg Meta.wakeCounts h⟩
      · exact Or.inr ⟨pending.id,state,e,h⟩
  | dropPending => exact Or.inl ⟨rfl,rfl⟩

/-- The step: a call after which `last_wake` names a wake has kept it. -/
theorem Call.apply_kept (c : Call) (now : Time) {id : Str} {k : Meta}
    (h : Names id (c.apply now k)) : Kept id k (c.apply now k) := by
  obtain ⟨hlast,hcounts⟩ | ⟨id',state,e,heq⟩ := c.apply_cases now k
  · exact .of_eq id hlast hcounts
  · rw [heq] at h ⊢
    obtain ⟨r,hr,hid⟩ := h
    obtain ⟨r',hr',hid'⟩ := record_names now id' state e k
    cases hr.symm.trans hr'
    rw [← hid,hid']
    exact record_kept now id' state e k

/-- The run: as long as every call leaves the wake in `last_wake`, they have kept it together. -/
theorem afterCalls_kept {id : Str} (calls : List (Time × Call)) (k : Meta)
    (h : ∀ past, past <+: calls → past ≠ [] → Names id (afterCalls k past)) :
    Kept id k (afterCalls k calls) := by
  induction calls generalizing k with
  | nil => exact .of_eq id rfl rfl
  | cons c calls ih =>
    have hfirst : Names id (c.2.apply c.1 k) :=
      h [c] (List.prefix_iff_eq_append.mpr rfl) (by simp)
    refine (c.2.apply_kept c.1 hfirst).trans (ih _ ?_)
    intro past hpast _
    exact h (c::past) ((List.cons_prefix_cons ..).mpr ⟨rfl,hpast⟩) (by simp)

/-- A completion for another wake than `last_wake` has no effect. -/
theorem recordWake_other (now : Time) {marker : Marker} {k : Meta} {last : LastWake}
    (hl : k.lastWake = some last) (hid : marker.id ≠ last.id) (hs : marker.status ≠ .writing) :
    recordWake now marker k = k := by
  simp only [recordWake,hl]
  rw [if_pos (show marker.status ≠ .writing ∧ last.id ≠ marker.id from ⟨hs,hid.symm⟩)]
  split_ifs <;> rfl

/-- Wake records are monotone. Take any calls from any keys that leave one wake in `last_wake`
after each of them; the first may be the one that began its record. -/
theorem wake_records_monotone (id : Str) (k : Meta) (calls : List (Time × Call))
    (hspan : ∀ past, past <+: calls → past ≠ [] → Names id (afterCalls k past)) :
    (∀ first, k.lastWake = some first → first.id = id →
      ∃ last, (afterCalls k calls).lastWake = some last ∧ last.id = id ∧
        rank first.state ≤ rank last.state ∧
        (rank first.state = 2 → last.state = first.state) ∧
        first.time ≤ last.time ∧
        (truthy first.queueId → last.queueId = first.queueId)) ∧
    failures (afterCalls k calls) ≤ failures k+1 ∧
    decisions (afterCalls k calls) ≤ decisions k+1 ∧
    ∀ now marker m last, Marker.ofJson marker = some m → m.status ≠ .writing →
      (afterCalls k calls).lastWake = some last → m.id ≠ last.id →
      (Call.recordWake marker).apply now (afterCalls k calls) = afterCalls k calls := by
  have h := afterCalls_kept calls k hspan
  refine ⟨?_,?_,?_,?_⟩
  · intro first hfirst hid
    obtain ⟨last,hlast,hlastid,hgrow⟩ := h.record first hfirst hid
    exact ⟨last,hlast,hlastid,hgrow.rank,hgrow.outcome,hgrow.time,hgrow.queueId⟩
  · have := h.failures
    have := room_le 1 id k
    omega
  · have := h.decisions
    have := room_le 2 id k
    omega
  · intro now marker m last hm hs hl hid
    simp only [Call.apply,hm]
    exact recordWake_other now hl hid hs

def sampleMarker (status : WakeState) : Json :=
  .obj [(str "id",.str sampleId.text),(str "status",.str (WakeState.text status))]

/-- A wake whose producer fails, is cleared, and completes after all; the clock goes back once. -/
def sampleCalls : List (Time × Call) :=
  [(5,.recordWake (sampleMarker .writing)),(3,.recordWake (sampleMarker .failed)),
    (4,.dropPending),(9,.recordWake (sampleMarker .queued))]

theorem wake_records_monotone_sample :
    failures (afterCalls {} sampleCalls) ≤ 1 ∧ decisions (afterCalls {} sampleCalls) ≤ 1 := by
  have hnames : ∀ past ∈ sampleCalls.inits, past.isEmpty = true ∨
      ((afterCalls {} past).lastWake.any fun r => r.id = sampleId.text) = true := by decide +kernel
  have hspan : ∀ past, past <+: sampleCalls → past ≠ [] →
      Names sampleId.text (afterCalls {} past) := by
    intro past hpast hne
    obtain hempty | hany := hnames past ((List.mem_inits ..).mpr hpast)
    · exact absurd (List.isEmpty_iff.mp hempty) hne
    · obtain ⟨r,hr,hid⟩ := (Option.any_eq_true ..).mp hany
      exact ⟨r,hr,of_decide_eq_true hid⟩
  have h := wake_records_monotone sampleId.text {} sampleCalls hspan
  exact ⟨h.2.1,h.2.2.1⟩

example : failures (afterCalls {} sampleCalls) = 1 ∧ decisions (afterCalls {} sampleCalls) = 1 := by
  decide +kernel

end PeerChat.Wake
