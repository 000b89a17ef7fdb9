import Mathlib.Data.List.Lex
import Mathlib.Order.Fin.Basic
import PeerChat.Inbox.DeliveredOnce
import PeerChat.Inbox.Details
import PeerChat.Peers.Resolve
import PeerChat.Wire.RoundTrip

/-! What a sender can ask about its messages: the records of `message_status`, and the times that a
trigger of the database enters for them. -/
namespace PeerChat
open Python Relational Wire Interleaving

/-! The trigger `message_timing_transition`. -/

inductive Stage
  | hookOffered
  | consumed
  deriving DecidableEq

def Stage.status : Stage → Status
  | .hookOffered => .hookOffered
  | .consumed => .consumed

structure TimingRow where
  peer : Str
  id : Str
  stage : Stage
  time : Time
  deriving DecidableEq

def TimingRow.key (r : TimingRow) : (Str × Str) × Stage := ((r.peer,r.id),r.stage)

/-- The table `message_timing`. -/
abbrev Timing := Table TimingRow ((Str × Str) × Stage) TimingRow.key

/-- The stage of a new status that a message comes to. -/
def stageOf : Status → Option Stage
  | .hookOffered => some .hookOffered
  | .consumed => some .consumed
  | _ => none

/-- What the trigger inserts for a row of the table after a transaction. -/
def triggered (now : Time) (old : Store) (r : MessageRow) : Option TimingRow :=
  match old.status r.key with
  | some before => if before ≠ r.status then (stageOf r.status).map fun stage => ⟨r.peer,r.id,stage,now⟩
      else none
  | none => none

/-- `INSERT OR IGNORE` for every row that a transaction has updated. -/
def Timing.observe (now : Time) (old new : Store) (table : Timing) : Timing :=
  (new.messages.rows.filterMap (triggered now old)).foldl Table.insert table

/-- The table after a sequence of accesses; the trigger has a clock of its own. -/
def Timing.after (clock : Machine → Time) (table : Timing) (T : List (Step World Op)) : Timing :=
  T.foldl (fun table t => table.observe (clock t.pre.machine) t.pre.store t.post.store) table

/-! The status command. -/

/-- `key_short(key)` -/
def keyShort (key : Str) : Str :=
  let parts := split (ofChar ':') key
  if startswith key (str "codex:") then
    str "codex:" ++ (if 3 ≤ parts.length then (parts.getLast?.getD []).take 8
      else (key.drop 6).take 8)
  else if 3 ≤ parts.length then join (ofChar ':') (parts.drop (parts.length-2))
  else key.take 20

structure MessageStatus where
  peer : Str
  peerShort : Str
  peerName : Option Str
  id : Str
  status : Status
  holdReason : Option HoldReason
  acknowledged : Bool
  createdAt : Time
  ageS : ℤ
  hookOfferedAt : Option Time
  acknowledgedAt : Option Time
  lastWakeState : Option WakeState
  deriving DecidableEq

/-- What is there to be read of the database and the machine; a second has so many ticks of the clock. -/
structure StatusView where
  machine : Machine
  store : Store
  timing : Timing
  second : ℤ

namespace StatusView
variable (v : StatusView)

/-- The names of the enrolled peers. -/
def peerName (key : Str) : Option Str :=
  (v.store.keys.config.bind fun config =>
    (allPeers v.machine config.toPeerTable).lookup key).bind (·.name)

/-- Is there one message of this id? -/
def single (mid : Str) : Bool := v.store.messages.rows.countP (·.id = mid) = 1

def timeOf (r : MessageRow) (stage : Stage) : Option Time :=
  (v.timing.find (r.key,stage)).map (·.time)

/-- `ORDER BY created DESC,peer`. -/
def newer (r r' : MessageRow) : Prop :=
  r'.created < r.created ∨ r.created = r'.created ∧ r.peer ≤ r'.peer

instance : DecidableRel newer := fun _ _ => inferInstanceAs (Decidable (_ ∨ _))

/-- `... AND id=? ORDER BY created DESC,peer LIMIT 21` -/
def selected (mid : Option Str) : List MessageRow :=
  (v.store.messages.select (fun r => ¬ truthy mid || mid = some r.id) newer).take 21

end StatusView

/-- What is there at each of the reads of the command: of the names, of the messages, of the last wake,
and then for each message of its times, and of how many have its id. Each is a transaction of its own. -/
abbrev StatusReads := ℕ → StatusView

namespace StatusReads
variable (v : StatusReads)

/-- The record of the message that has been read as the `k`-th. -/
def record (k : ℕ) (r : MessageRow) : MessageStatus where
  peer := r.peer
  peerShort := keyShort r.peer
  peerName := (v 0).peerName r.peer
  id := r.id
  status := r.status
  holdReason := if r.status = .held then some (holdReasonOf r.detail) else none
  acknowledged := r.status = .consumed
  createdAt := r.created
  ageS := max 0 (((v (4+2*k)).machine.now - r.created) / (v (4+2*k)).second)
  hookOfferedAt := (v (3+2*k)).timeOf r .hookOffered
  acknowledgedAt := (v (3+2*k)).timeOf r .consumed
  lastWakeState := ((v 2).store.keys.lastWake.filter fun wake =>
    wake.id = r.id && (v (4+2*k)).single r.id).map (·.state)

/-- `message_status(state_root, thread, message_id)` of a database that can be read: the records, and
whether there are more. -/
def messageStatus (mid : Option Str) : Except Exc (List MessageStatus × Bool) :=
  if mid.any fun mid => ¬ validId mid then
    .error (valueError "An exact message UUID is required")
  else
    .ok ((((v 1).selected mid).take 20).mapIdx v.record,20 < ((v 1).selected mid).length)

variable {v}

/-- The records are those of messages that were there when the messages were read. -/
lemma messageStatus_getElem? {mid : Option Str} {entries : List MessageStatus} {more : Bool}
    (h : v.messageStatus mid = .ok (entries,more)) {k : ℕ} {e : MessageStatus}
    (he : entries[k]? = some e) :
    ∃ r, (v 1).store.messages.find (e.peer,e.id) = some r ∧ e = v.record k r := by
  unfold messageStatus at h
  split_ifs at h
  cases h
  rw [List.getElem?_mapIdx] at he
  obtain ⟨r,hr,rfl⟩ := Option.map_eq_some_iff.mp he
  have hmem := (List.take_sublist ..).subset ((List.take_sublist ..).subset (List.mem_of_getElem? hr))
  exact ⟨r,Table.find_of_mem (Table.select_mem.mp hmem).1,rfl⟩

end StatusReads

/-- What is there after a run, with the clock of the trigger. -/
def StatusView.ofRun (U : Interp) (honest : Bool) (m : Machine) (es : Schedule)
    (clock : Machine → Time) (second : ℤ) : StatusView where
  machine := ((bridge U honest).final (.idle (.new m)) es).state.machine
  store := ((bridge U honest).final (.idle (.new m)) es).state.store
  timing := Timing.after clock .empty ((bridge U honest).trace (.idle (.new m)) es)
  second := second

/-- What is there at the reads of a command beside a run, each at an instant of it. -/
def StatusReads.beside (U : Interp) (honest : Bool) (m : Machine) (es : Schedule)
    (clock : Machine → Time) (second : ℤ) (instant : ℕ → ℕ) : StatusReads :=
  fun n => .ofRun U honest m (es.take (instant n)) clock second

/-- In every run, with the reads of the status command at any instants of it: it reports a reason of each
held message, and of no other. That is an enrollment that was missed, or too many hops, and those it does
have; it is never the unspecific one. -/
theorem reasons_reported (U : Interp) (honest : Bool) (m : Machine) (es : Schedule)
    (clock : Machine → Time) (second : ℤ) (instant : ℕ → ℕ) (mid : Option Str)
    (entries : List MessageStatus) (more : Bool)
    (h : (StatusReads.beside U honest m es clock second instant).messageStatus mid =
      .ok (entries,more)) :
    ∀ e ∈ entries, ∃ r,
      ((bridge U honest).final (.idle (.new m)) (es.take (instant 1))).state.store.messages.find
        (e.peer,e.id) = some r ∧
      e.status = r.status ∧ (r.status ≠ .held → e.holdReason = none) ∧
      (r.status = .held → e.holdReason = some .peerNotEnrolled ∨
        e.holdReason = some .hopLimit ∧ HOP_LIMIT ≤ r.hops.length) := by
  intro e he
  obtain ⟨k,hk⟩ := List.getElem?_of_mem he
  obtain ⟨r,hr,rfl⟩ := StatusReads.messageStatus_getElem? h hk
  refine ⟨r,hr,rfl,fun hne => if_neg hne,fun hheld => ?_⟩
  have haccounted := (details_kept U honest m (es.take (instant 1))).1 _ r hr
  unfold Accounted at haccounted
  rw [hheld] at haccounted
  simp only [StatusReads.record,if_pos hheld,Option.some.injEq]
  exact haccounted

/-- A message with too many hops, and the ticks of a listener that forwards to a queue. -/
def heldRun : Schedule :=
  .start 0 (.start {
    thread := sampleId.text
    ownerPid := some 7
    requested := some (.ok samplePeer)
    delivery := some .queue
    socket := str "/run/own.sock" }) :: List.replicate 20 (.step 0) ++
  [.start 1 (.accept (str "41:9") (.message (str "m1") (str "hello") .prompting
    (List.replicate 8 sampleHop))),.step 1] ++
  .start 2 (.serve 50 [false]) :: List.replicate 30 (.step 2)

theorem reasons_reported_held : ∃ entries more,
    (StatusReads.beside .ascii true sampleMachine heldRun (·.now) 1
      fun _ => heldRun.length).messageStatus none = .ok (entries,more) ∧
    ∃ e ∈ entries, e.status = .held ∧ e.holdReason = some .hopLimit ∧ ∃ r,
      ((bridge .ascii true).final (.idle (.new sampleMachine))
        (heldRun.take heldRun.length)).state.store.messages.find (e.peer,e.id) = some r ∧
      HOP_LIMIT ≤ r.hops.length := by
  let v := StatusReads.beside .ascii true sampleMachine heldRun (·.now) 1 fun _ => heldRun.length
  have hheld : ∃ e ∈ (((v 1).selected none).take 20).mapIdx v.record, e.status = .held ∧
      e.holdReason = some .hopLimit := by
    decide +kernel
  obtain ⟨e,he,hstatus,hhops⟩ := hheld
  obtain ⟨r,hr,hsame,-,hreason⟩ := reasons_reported .ascii true sampleMachine heldRun (·.now) 1
    (fun _ => heldRun.length) none _ _ rfl e he
  refine ⟨_,_,rfl,e,he,hstatus,hhops,r,hr,?_⟩
  obtain h | ⟨-,h⟩ := hreason (hsame ▸ hstatus)
  · rw [hhops] at h
    cases h
  · exact h

/-! The times. -/

/-- What the trigger inserts for one message. -/
def Timing.entry (now : Time) (old new : Store) (key : Str × Str) (stage : Stage) : Option TimingRow :=
  (new.messages.rows.filterMap (triggered now old)).find? fun row => row.key = (key,stage)

lemma Timing.find_observe (now : Time) (old new : Store) (table : Timing) (key : Str × Str)
    (stage : Stage) : (table.observe now old new).find (key,stage) =
      (table.find (key,stage)).orElse fun _ => entry now old new key stage :=
  Table.find_foldl_insert ..

lemma stageOf_eq {status : Status} {stage : Stage} : stageOf status = some stage ↔
    status = stage.status := by
  cases status <;> cases stage <;> simp [stageOf,Stage.status]

/-- An entry is of a message that has come to the stage. -/
lemma Timing.entry_some {now : Time} {old new : Store} {key : Str × Str} {stage : Stage}
    {row : TimingRow} (h : entry now old new key stage = some row) : row.time = now ∧
      ∃ before, old.status key = some before ∧ before ≠ stage.status ∧
        new.status key = some stage.status := by
  obtain ⟨r,hr,htriggered⟩ := List.mem_filterMap.mp (List.mem_of_find?_eq_some h)
  have hkey : row.key = (key,stage) := by simpa using List.find?_some h
  unfold triggered at htriggered
  split at htriggered
  · rename_i before hbefore
    split_ifs at htriggered with hne
    obtain ⟨stage',hstage,rfl⟩ := Option.map_eq_some_iff.mp htriggered
    obtain ⟨rfl,rfl⟩ : r.key = key ∧ stage' = stage := Prod.mk.inj hkey
    have hstatus := stageOf_eq.mp hstage
    refine ⟨rfl,before,hbefore,?_,?_⟩
    · rw [← hstatus]
      exact hne
    · rw [Store.status,Table.find_of_mem hr,Option.map_some,hstatus]
  · cases htriggered

/-- A message that comes to a stage gets an entry. -/
lemma Timing.entry_isSome {now : Time} {old new : Store} {key : Str × Str} {stage : Stage}
    {before : Status} (hold : old.status key = some before) (hne : before ≠ stage.status)
    (hnew : new.status key = some stage.status) : (entry now old new key stage).isSome = true := by
  obtain ⟨r,hr,hstatus⟩ := Option.map_eq_some_iff.mp hnew
  obtain ⟨hmem,rfl⟩ := Table.find_some hr
  unfold entry
  rw [List.find?_isSome]
  refine ⟨⟨r.peer,r.id,stage,now⟩,List.mem_filterMap.mpr ⟨r,hmem,?_⟩,by simp [TimingRow.key,MessageRow.key]⟩
  unfold triggered
  rw [hold]
  simp only [hstatus,ne_eq,hne,not_false_eq_true,if_true]
  rw [stageOf_eq.mpr rfl]
  rfl

/-- What the table says of the messages of a store. -/
structure Timed (now : Time) (table : Timing) (s : Store) : Prop where
  consumed : ∀ key, s.status key = some .consumed ↔ (table.find (key,.consumed)).isSome = true
  offered : ∀ key, s.status key = some .hookOffered →
    (table.find (key,.hookOffered)).isSome = true
  past : ∀ k row, table.find k = some row → row.time ≤ now
  ordered : ∀ key a b, table.find (key,.hookOffered) = some a →
    table.find (key,.consumed) = some b → a.time ≤ b.time

/-- A message comes in as received. -/
lemma StatusStep.of_none {op : Op} {b : Option Status} (h : StatusStep op none b) :
    b = none ∨ b = some .received := by
  obtain h | h := h
  · exact Or.inl h
  · split at h
    · exact Or.inr h.2
    · obtain ⟨⟨st,hst,-⟩,-⟩ := h
      cases hst
    · obtain ⟨⟨st,hst,-⟩,-⟩ := h
      cases hst
    · cases h.1
    · obtain ⟨⟨st,hst,-⟩,-⟩ := h
      cases hst
    · cases h.1
    · cases h.1
    · cases h.1
    · cases h.1
    · exact h.elim

/-- A message that is at a stage was there before, or gets an entry. -/
lemma stage_step (op : Op) (w : World) {key : Str × Str} {stage : Stage} (now : Time)
    (h : (apply op w).store.status key = some stage.status) :
    w.store.status key = some stage.status ∨
      (Timing.entry now w.store (apply op w).store key stage).isSome = true := by
  cases hold : w.store.status key with
  | some before =>
    by_cases hne : before = stage.status
    · exact Or.inl (congrArg some hne)
    · exact Or.inr (Timing.entry_isSome hold hne h)
  | none =>
    have hstep := status_step op w key
    rw [hold,h] at hstep
    obtain hb | hb := hstep.of_none
    · cases hb
    · cases stage <;> cases hb

/-- One access, whose end is no earlier than it. -/
lemma Timed.step {now now' : Time} {table : Timing} {w : World} (h : Timed now table w.store)
    (op : Op) (hnow : now ≤ now') :
    Timed now' (table.observe now w.store (apply op w).store) (apply op w).store := by
  have hfind := Timing.find_observe now w.store (apply op w).store table
  constructor
  · intro key
    rw [hfind]
    cases hold : table.find (key,.consumed) with
    | some row =>
      have hconsumed := (h.consumed key).mpr (by rw [hold]; rfl)
      have hstep := status_step op w key
      rw [hconsumed] at hstep
      rw [hstep.of_consumed]
      simp
    | none =>
      constructor
      · intro hnew
        obtain hc | hentry := @stage_step op w key .consumed now hnew
        · have hsome := (h.consumed key).mp hc
          rw [hold] at hsome
          cases hsome
        · exact hentry
      · intro hentry
        obtain ⟨row,hrow⟩ := Option.isSome_iff_exists.mp hentry
        obtain ⟨-,before,-,-,hnew⟩ := Timing.entry_some hrow
        exact hnew
  · intro key hnew
    rw [hfind]
    cases hold : table.find (key,.hookOffered) with
    | some row => rfl
    | none =>
      obtain hc | hentry := @stage_step op w key .hookOffered now hnew
      · have hsome := h.offered key hc
        rw [hold] at hsome
        cases hsome
      · exact hentry
  · intro k row hrow
    obtain ⟨key,stage⟩ := k
    rw [hfind] at hrow
    cases hold : table.find (key,stage) with
    | some row₀ =>
      rw [hold] at hrow
      cases hrow
      exact (h.past _ _ hold).trans hnow
    | none =>
      rw [hold] at hrow
      rw [(Timing.entry_some hrow).1]
      exact hnow
  · intro key a b ha hb
    rw [hfind] at ha hb
    cases hb₀ : table.find (key,.consumed) with
    | some b₀ =>
      rw [hb₀] at hb
      cases hb
      cases ha₀ : table.find (key,.hookOffered) with
      | some a₀ =>
        rw [ha₀] at ha
        cases ha
        exact h.ordered key _ _ ha₀ hb₀
      | none =>
        -- a consumed message is never offered
        rw [ha₀] at ha
        obtain ⟨-,before,hbefore,hne,hoffered⟩ := Timing.entry_some ha
        have hconsumed := (h.consumed key).mpr (by rw [hb₀]; rfl)
        have hstep := status_step op w key
        rw [hconsumed] at hstep
        cases hoffered.symm.trans hstep.of_consumed
    | none =>
      rw [hb₀] at hb
      rw [(Timing.entry_some hb).1]
      cases ha₀ : table.find (key,.hookOffered) with
      | some a₀ =>
        rw [ha₀] at ha
        cases ha
        exact h.past _ _ ha₀
      | none =>
        rw [ha₀] at ha
        rw [(Timing.entry_some ha).1]

/-- A sequence of accesses during which the clock goes on. -/
lemma Timed.after {clock : Machine → Time} {ls : List Op} {w : World} {table : Timing}
    (h : Timed (clock w.machine) table w.store)
    (hclock : ∀ t ∈ stepsOf w ls, clock t.pre.machine ≤ clock t.post.machine) :
    Timed (clock (after w ls).machine) (table.after clock (stepsOf w ls)) (after w ls).store := by
  induction ls generalizing w table with
  | nil => exact h
  | cons op ls ih =>
    have hstep := h.step op (hclock ⟨op,w⟩ (List.mem_cons_self ..))
    exact ih hstep fun t ht => hclock t (List.mem_cons_of_mem _ ht)

/-- An entry of the table stays as it is. -/
lemma Timing.find_after (clock : Machine → Time) (T : List (Step World Op)) {table : Timing}
    {k : (Str × Str) × Stage} {row : TimingRow} (h : table.find k = some row) :
    (table.after clock T).find k = some row := by
  induction T generalizing table with
  | nil => exact h
  | cons t T ih =>
    refine ih ?_
    obtain ⟨key,stage⟩ := k
    rw [Timing.find_observe,h]
    rfl

/-- After any run during which the clock of the trigger goes on. -/
lemma timed_ofRun (U : Interp) (honest : Bool) (m : Machine) (es : Schedule) (clock : Machine → Time)
    (second : ℤ) (hclock : ∀ t ∈ (bridge U honest).trace (.idle (.new m)) es,
      clock t.pre.machine ≤ clock t.post.machine) :
    let v := StatusView.ofRun U honest m es clock second
    Timed (clock v.machine) v.timing v.store := by
  obtain ⟨ls,htrace,hfinal⟩ := (bridge U honest).exists_labels (.idle (.new m)) es
  rw [htrace] at hclock
  have hnew : Timed (clock m) .empty (World.new m).store := by
    constructor
    · intro key
      constructor <;> intro hc <;> cases hc
    · intro key hc
      cases hc
    · intro k row hrow
      cases hrow
    · intro key a b ha
      cases ha
  unfold StatusView.ofRun
  rw [htrace,hfinal]
  exact Timed.after (w := .new m) hnew hclock

/-- What the table says at one instant, it says at a later one. -/
lemma find_ofRun_append {U : Interp} {honest : Bool} {m : Machine} (es es' : Schedule)
    {clock : Machine → Time} {second : ℤ} {k : (Str × Str) × Stage}
    (h : ((StatusView.ofRun U honest m es clock second).timing.find k).isSome = true) :
    ((StatusView.ofRun U honest m (es ++ es') clock second).timing.find k).isSome = true := by
  obtain ⟨row,hrow⟩ := Option.isSome_iff_exists.mp h
  simp only [StatusView.ofRun] at hrow ⊢
  rw [System.trace_append,Timing.after,List.foldl_append]
  exact Option.isSome_iff_exists.mpr ⟨row,Timing.find_after clock _ hrow⟩

/-- In every run during which the clock of the trigger goes on, with the reads of the status command at
any instants of it: a message that is listed as acknowledged has a time of that, and one has such a time
if and only if it is acknowledged by when its times are read; one that is listed as offered has a time of
that; and none is acknowledged before it was offered. -/
theorem times_reported (U : Interp) (honest : Bool) (m : Machine) (es : Schedule)
    (clock : Machine → Time)
    (hclock : ∀ t ∈ (bridge U honest).trace (.idle (.new m)) es,
      clock t.pre.machine ≤ clock t.post.machine)
    (second : ℤ) (instant : ℕ → ℕ) (hinstant : Monotone instant) (mid : Option Str)
    (entries : List MessageStatus) (more : Bool)
    (h : (StatusReads.beside U honest m es clock second instant).messageStatus mid =
      .ok (entries,more)) :
    ∀ k e, entries[k]? = some e → (e.acknowledged = true → e.acknowledgedAt.isSome = true) ∧
      (e.acknowledgedAt.isSome = true ↔
        ((bridge U honest).final (.idle (.new m)) (es.take (instant (3+2*k)))).state.store.status
          (e.peer,e.id) = some .consumed) ∧
      (e.status = .hookOffered → e.hookOfferedAt.isSome = true) ∧
      ∀ offered acknowledged, e.hookOfferedAt = some offered →
        e.acknowledgedAt = some acknowledged → offered ≤ acknowledged := by
  intro k e he
  obtain ⟨r,hr,rfl⟩ := StatusReads.messageStatus_getElem? h he
  have htimed : ∀ n, Timed _ _ _ := fun n =>
    timed_ofRun U honest m (es.take (instant n)) clock second fun t ht => hclock t <| by
      rw [← List.take_append_drop (instant n) es,System.trace_append]
      exact List.mem_append_left _ ht
  have hstatus : (StatusReads.beside U honest m es clock second instant 1).store.status r.key =
      some r.status := by
    rw [Store.status]
    exact congrArg (Option.map _) hr
  -- what is entered when the messages are read, is there when the times are read
  have hlater : ∀ stage,
      ((StatusReads.beside U honest m es clock second instant 1).timing.find
        (r.key,stage)).isSome = true →
      ((StatusReads.beside U honest m es clock second instant (3+2*k)).timing.find
        (r.key,stage)).isSome = true := by
    intro stage hstage
    have hle : instant 1 ≤ instant (3+2*k) := hinstant (by omega)
    obtain ⟨es',hes⟩ := @List.take_prefix_take_left _ es _ _ hle
    unfold StatusReads.beside at hstage ⊢
    rw [← hes]
    exact find_ofRun_append _ _ hstage
  refine ⟨?_,?_,?_,?_⟩
  · intro hack
    have hc : r.status = .consumed := of_decide_eq_true hack
    simp only [StatusReads.record,StatusView.timeOf,Option.isSome_map]
    exact hlater .consumed (((htimed 1).consumed r.key).mp (hstatus.trans (congrArg some hc)))
  · simp only [StatusReads.record,StatusView.timeOf,Option.isSome_map]
    exact ((htimed (3+2*k)).consumed r.key).symm
  · intro hoffered
    have ho : r.status = .hookOffered := hoffered
    simp only [StatusReads.record,StatusView.timeOf,Option.isSome_map]
    exact hlater .hookOffered ((htimed 1).offered r.key (hstatus.trans (congrArg some ho)))
  · intro offered acknowledged ho ha
    simp only [StatusReads.record,StatusView.timeOf] at ho ha
    obtain ⟨a,ha₀,rfl⟩ := Option.map_eq_some_iff.mp ho
    obtain ⟨b,hb₀,rfl⟩ := Option.map_eq_some_iff.mp ha
    exact (htimed (3+2*k)).ordered r.key a b ha₀ hb₀

/-- A message comes in, and later it is read by its id and acknowledged. -/
def reviewedRun : Schedule :=
  [.start 0 (.accept (str "41:9") (.message (str "m1") (str "hello") .prompting [])),.step 0,
    .outside (.outside { sampleMachine with now := 9 }),
    .start 1 (.readById none (str "m1") true)] ++ List.replicate 4 (.step 1)

/-- A status command beside it lists the message before, and reads its times after that. -/
def reviewedAt (n : ℕ) : ℕ := if n ≤ 1 then 3 else reviewedRun.length

theorem times_reported_reviewed : ∃ entries more,
    (StatusReads.beside .ascii true sampleMachine reviewedRun (·.now) 1 reviewedAt).messageStatus
      none = .ok (entries,more) ∧
    ∃ e, entries[0]? = some e ∧ e.acknowledged = false ∧ e.acknowledgedAt.isSome = true ∧
      ((bridge .ascii true).final (.idle (.new sampleMachine))
        (reviewedRun.take (reviewedAt 3))).state.store.status (e.peer,e.id) = some .consumed := by
  let v := StatusReads.beside .ascii true sampleMachine reviewedRun (·.now) 1 reviewedAt
  have hread : ∃ e ∈ ((((v 1).selected none).take 20).mapIdx v.record)[0]?,
      e.acknowledged = false ∧ e.acknowledgedAt.isSome = true := by
    decide +kernel
  have hinstant : Monotone reviewedAt := by
    intro n k hnk
    unfold reviewedAt
    split_ifs
    · exact le_rfl
    · decide
    · omega
    · exact le_rfl
  obtain ⟨e,he,hack,htime⟩ := hread
  have htimes := times_reported .ascii true sampleMachine reviewedRun (·.now) (by decide +kernel) 1
    reviewedAt hinstant none _ _ rfl 0 e he
  exact ⟨_,_,rfl,e,he,hack,htime,htimes.2.1.mp htime⟩

end PeerChat
