import PeerChat.Budget.Accounting
import PeerChat.Budget.Wakes
import PeerChat.Dispatch.Judged
import PeerChat.Inbox.Content
import PeerChat.Wire.RoundTrip

/-! The routing guard. Hooks, wakes and the queue mode each have a copy of it; a message that it
excludes is not handed over, not announced and not paid for by any of them, whatever the others do
in between. -/
namespace PeerChat
open Python Relational Wire Interleaving

/-- What the guard asks of a message. -/
structure Eligible (m : Machine) (config : Config) (row : MessageRow) : Prop where
  enrolled : PeerChat.enrolled m config row.peer = true
  hops : row.hops.length < HOP_LIMIT

lemma holdReason_none_iff {m : Machine} {config : Config} {row : MessageRow} :
    holdReason m config row = none ↔ Eligible m config row := by
  rw [holdReason]
  split_ifs with he hh
  · exact ⟨by rintro ⟨⟩,fun h => absurd h.hops (not_lt.mpr hh)⟩
  · exact ⟨fun _ => ⟨he,not_le.mp hh⟩,fun _ => rfl⟩
  · exact ⟨by rintro ⟨⟩,fun h => absurd h.enrolled he⟩

/-- The guard looks at nothing that changes in a stored row. -/
lemma Eligible.congr {m : Machine} {config : Config} {r r' : MessageRow} (hk : r'.key = r.key)
    (hc : r'.content = r.content) (h : Eligible m config r) : Eligible m config r' := by
  have hp : r'.peer = r.peer := congrArg Prod.fst hk
  have hh : r'.hops = r.hops := congrArg (·.2.2.1) hc
  exact ⟨by rw [hp]; exact h.enrolled,by rw [hh]; exact h.hops⟩

/-! The three copies. -/

/-- The loop of the hook offers eligible rows only. -/
lemma offerRows_eligible {m : Machine} {config : Config} {rows : List MessageRow} {b b' : Batch}
    (h : offerRows m config rows b = .ok b') (hnd : (rows.map MessageRow.key).Nodup)
    (hrec : ∀ r ∈ rows, b.store.status r.key = some .received) :
    ∀ r ∈ rows, b'.store.status r.key = some .hookOffered → Eligible m config r := by
  induction rows generalizing b with
  | nil => simp
  | cons row rows ih =>
    have hnd' := (List.nodup_cons.mp hnd).2
    rcases offerRows_cons h with rfl | ⟨reason,-,hrun⟩ | ⟨remaining,text,hnone,-,-,-,hrun⟩
    · intro r hr he
      rw [hrec r hr] at he
      cases he
    · obtain ⟨hrec',hrow⟩ := offerRows_rest hrun rfl hnd hrec
      intro r hr he
      rcases List.mem_cons.mp hr with rfl | hr
      · rw [hrow] at he
        cases he
      · exact ih hrun hnd' hrec' r hr he
    · obtain ⟨hrec',-⟩ := offerRows_rest hrun rfl hnd hrec
      intro r hr he
      rcases List.mem_cons.mp hr with rfl | hr
      · exact holdReason_none_iff.mp hnone
      · exact ih hrun hnd' hrec' r hr he

/-- A hook's offer. -/
lemma offer_eligible {m : Machine} {config : Config} {notice : Str} {s : Store} {key : Str × Str}
    {r : MessageRow} (hr : s.messages.find key = some r) (hrec : r.status = .received)
    (h : (offer m config notice s).status key = some .hookOffered) : Eligible m config r := by
  have hk : r.key = key := (Table.find_some hr).2
  have hpre : s.status key = some .received := by rw [Store.status,hr,Option.map_some,hrec]
  cases hb : offerBatch m config notice s with
  | error exc =>
    rw [offer,hb,hpre] at h
    cases h
  | ok ob =>
    cases ob with
    | none =>
      rw [offer,hb,hpre] at h
      cases h
    | some b =>
      rw [offer,hb] at h
      rw [Store.status_setKeys] at h
      obtain ⟨-,pieces,hrows⟩ := offerBatch_some hb
      have hsub : (s.pending.take 4).Sublist s.pending := List.take_sublist ..
      have hnd := s.pending_take_nodup 4
      have hrecs := s.pending_take_status 4
      rcases offerRows_status hrows hnd hrecs key with he | ⟨hmem,-⟩
      · rw [he,hpre] at h
        cases h
      · obtain ⟨x,hx,hxk⟩ := List.mem_map.mp hmem
        have hxf := (Store.mem_select.mp (hsub.subset hx)).1
        rw [hxk,hr] at hxf
        cases hxf
        exact offerRows_eligible hrows hnd hrecs r hx (by rw [hk]; exact h)

/-- A wake's claim. -/
lemma claimed_eligible {m : Machine} {config : Config} {s : Store} {row : MessageRow}
    (h : Wake.claimed m config s = some row) : row ∈ s.pending ∧ Eligible m config row := by
  have hloop : ∀ rows t, (Wake.holdUndeliverable m config rows t).2 = some row →
      row ∈ rows ∧ Eligible m config row := by
    intro rows
    induction rows with
    | nil => exact fun t h => by cases h
    | cons r rows ih =>
      intro t h
      rw [Wake.holdUndeliverable] at h
      split at h
      · obtain ⟨hmem,he⟩ := ih _ h
        exact ⟨List.mem_cons_of_mem _ hmem,he⟩
      · rename_i hnone
        obtain rfl : r = row := Option.some.inj h
        exact ⟨List.mem_cons_self ..,holdReason_none_iff.mp hnone⟩
  rw [Wake.claimed] at h
  split_ifs at h
  exact hloop _ _ h

/-! The guard over one access of a process. -/

/-- The machine and the configuration that a process goes by in its next access. -/
def judge (past : List (Step World Op)) (t : Step World Op) : Option (Machine × Config) :=
  match t.label with
  | .inbox (.offer ..) | .inbox (.claimWake _) =>
    (foundConfig past).map fun config => (t.pre.machine,config)
  | .inbox (.claimForwarding ..) | .inbox (.setStatus _ _ .held _) =>
    (foundMachine past).bind fun m => (foundConfig past).map fun config => (m,config)
  | _ => none

/-- A message that the guard excludes, as this access judges it. -/
def Excluded (r : Record World Op) (row : MessageRow) : Prop :=
  r.step.pre.store.messages.find row.key = some row ∧
    ∃ m config, judge r.before r.step = some (m,config) ∧ ¬ Eligible m config row

/-- No excluded message is handed over or announced, and what an access spends, it spends on
messages that are not excluded. A write of the meta keys moves no message. -/
structure Safe (r : Record World Op) : Prop where
  handed : ∀ row, Excluded r row → ¬ HandsOver row.key r.step
  claimed : ∀ row, Excluded r row → ¬ ClaimsFor row r.step
  remaining : resets r.step.pre r.step.label = false →
    Balance r.step.pre.store.keys.remaining r.step.post.store.keys.remaining
      (PeerChat.handed r.step)
  wakes : resetsWakes r.step.pre r.step.label = false →
    r.step.post.store.keys.wakeRemaining = r.step.pre.store.keys.wakeRemaining ∨
      ∃ row, ClaimsFor row r.step ∧ r.step.post.store.keys.wakeRemaining =
        (wakesLeft r.step.pre.store.keys).map spend
  kept : ∀ op, r.step.label = .key op → r.step.post.store.messages = r.step.pre.store.messages

/-- An excluded message is left alone, or goes from `received` to `held`. -/
def HeldOnly (r : Record World Op) : Prop :=
  ∀ row, Excluded r row → r.step.post.store.status row.key = r.step.pre.store.status row.key ∨
    r.step.pre.store.status row.key = some .received ∧
      r.step.post.store.status row.key = some .held

/-- A tick that holds the row it has selected finds it unread, or held or acknowledged meanwhile. -/
def HoldsUnread (t : Step World Op) : Prop :=
  match t.label with
  | .inbox (.setStatus peer id .held _) => ∀ st, t.pre.store.status (peer,id) = some st →
    st = .received ∨ st = .held ∨ st = .consumed
  | _ => True

/-! Runs. -/

section
variable {U : Interp} {honest : Bool} {w : World} {es : Schedule} {r : Record World Op}

/-- The row that a process has found is still there. -/
lemma foundRow_retained (hr : r ∈ (bridge U honest).log w es) {i : ℕ} (hi : r.process = some i)
    {row : MessageRow} (h : foundRow r.before = some row) :
    ∃ x, r.step.pre.store.messages.find row.key = some x ∧ x.content = row.content := by
  obtain ⟨w₀,hfound,hhead⟩ := Option.bind_eq_some_iff.mp h
  refine System.past_kept (P := fun w => ∃ x, w.store.messages.find row.key = some x ∧
    x.content = row.content) ?_ hr hi (lastFound_mem hfound) ?_
  · rintro t - ⟨x,hx,hc⟩
    obtain ⟨y,hy,hc'⟩ := retains_step t.label t.pre _ x hx
    exact ⟨y,hy,hc'.trans hc⟩
  · exact ⟨row,(Store.mem_select.mp (List.mem_of_mem_head? hhead)).1,rfl⟩

/-- What a process has found out about a row is so for the row in the store. -/
lemma finds_current (hr : r ∈ (bridge U honest).log w es) {i : ℕ} (hi : r.process = some i)
    {key : Str × Str} {reason : Option Str → Prop} (h : Finds r.before key reason) :
    ∃ m config row₀ row, foundMachine r.before = some m ∧ foundConfig r.before = some config ∧
      r.step.pre.store.messages.find key = some row ∧ row₀.key = row.key ∧
      row.content = row₀.content ∧ reason (holdReason m config row₀) := by
  obtain ⟨config,m,row₀,hc,hm,hrow,hk,hreason⟩ := h
  obtain ⟨x,hx,hcontent⟩ := foundRow_retained hr hi hrow
  refine ⟨m,config,row₀,x,hm,hc,by rw [← hk]; exact hx,?_,hcontent,hreason⟩
  exact ((Table.find_some hx).2).symm

/-- A message that is handed over is eligible, as this access judges it. -/
lemma handed_eligible (hr : r ∈ (bridge U honest).log w es) {key : Str × Str}
    (hh : HandsOver key r.step) : ∃ row m config, r.step.pre.store.messages.find key = some row ∧
      judge r.before r.step = some (m,config) ∧ Eligible m config row := by
  obtain ⟨hreceived,hauto⟩ := hh.step
  rw [Store.status,Option.map_eq_some_iff] at hreceived
  obtain ⟨row,hfind,hrec⟩ := hreceived
  have hown : ∃ i, r.process = some i ∧ Judged r.before r.step := by
    rcases log_judged U honest w es r hr with hout | h
    · cases hl : r.step.label with
      | outside m => simp [hl,Op.automatic] at hauto
      | _ => simp [hl,Op.isOutside] at hout
    · exact h
  obtain ⟨i,hi,hjudged⟩ := hown
  obtain ⟨process,past,l,w'⟩ := r
  cases l with
  | inbox op =>
    cases op with
    | offer config notice =>
      have hfound : foundConfig past = some config := hjudged
      refine ⟨row,w'.machine,config,hfind,by simp [judge,hfound],?_⟩
      refine @offer_eligible _ _ notice _ _ _ hfind hrec ?_
      rcases hh.2 with h | h
      · exact h
      · rcases offer_status w'.machine config notice w'.store key with he | ⟨-,he | he⟩
        · exact absurd he hh.1
        · exact absurd (he.symm.trans h) (by decide)
        · exact he
    | claimForwarding peer id =>
      have hfinds : Finds past (peer,id) (· = none) := hjudged
      obtain ⟨m,config,row₀,x,hm,hc,hx,hk,hcontent,hnone⟩ := finds_current hr hi hfinds
      have hkey : key = (peer,id) := by
        by_contra hkey
        exact hh.1 (claimForwarding_status_other w'.store hkey)
      subst hkey
      obtain rfl : x = row := Option.some.inj (hx.symm.trans hfind)
      exact ⟨x,m,config,hx,by simp [judge,hm,hc],
        (holdReason_none_iff.mp hnone).congr hk.symm hcontent⟩
    | _ => cases hauto
  | _ => cases hauto

/-- No excluded message is handed over. -/
lemma excluded_not_handed (hr : r ∈ (bridge U honest).log w es) {row : MessageRow}
    (hex : Excluded r row) : ¬ HandsOver row.key r.step := by
  intro hh
  obtain ⟨hfind,m,config,hjudge,hne⟩ := hex
  obtain ⟨found,m',config',hfound,hjudge',helig⟩ := handed_eligible hr hh
  cases hfind.symm.trans hfound
  cases hjudge.symm.trans hjudge'
  exact hne helig

lemma safe_of_log (hr : r ∈ (bridge U honest).log w es) : Safe r where
  handed _ := excluded_not_handed hr
  claimed := by
    rintro row ⟨hfind,m,config,hjudge,hne⟩ ⟨config',hl,hclaimed⟩
    rcases log_judged U honest w es _ hr with hout | ⟨i,hi,hjudged⟩
    · rw [hl] at hout
      cases hout
    · simp only [Judged,hl] at hjudged
      simp only [judge,hl,hjudged,Option.map_some,Option.some.injEq,Prod.mk.injEq] at hjudge
      obtain ⟨rfl,rfl⟩ := hjudge
      exact hne (claimed_eligible hclaimed).2
  remaining := balance_step
  wakes := wakes_step
  kept := by
    intro op hl
    rw [Step.post,hl]
    rfl

/-- A tick's `held` touches one row. -/
lemma setStatus_status {peer id : Str} {outcome : Store.Outcome} {detail : Str} (s : Store)
    (key : Str × Str) : (s.setStatus peer id outcome detail).status key =
      if key = (peer,id) ∧ s.status key ≠ some .consumed then
        (s.status key).map fun _ => outcome.toStatus
      else s.status key := by
  rw [Store.setStatus,Store.status_setRows,Store.status]
  cases hf : s.messages.find key with
  | none => simp
  | some x =>
    have hk : x.key = key := (Table.find_some hf).2
    have hiff : (x.peer = peer && x.id = id && x.status ≠ .consumed) = true ↔
        key = (peer,id) ∧ x.status ≠ .consumed := by
      rw [← hk]
      simp [MessageRow.key]
    simp only [Option.map_some,hiff,ne_eq,Option.some.injEq]
    split_ifs <;> rfl

/-- Where the rows that ticks hold are found unread, excluded messages go to `held` only; and
where they are not, an excluded message comes from elsewhere. -/
lemma heldOnly_iff (hr : r ∈ (bridge U honest).log w es) : HeldOnly r ↔ HoldsUnread r.step := by
  rcases log_judged U honest w es _ hr with hout | ⟨i,hi,hjudged⟩
  · obtain ⟨process,past,l,w'⟩ := r
    cases l with
    | outside m => exact ⟨fun _ => trivial,fun _ row _ => Or.inl rfl⟩
    | _ => cases hout
  · by_cases hheld : ∃ peer id detail, r.step.label = .inbox (.setStatus peer id .held detail)
    · obtain ⟨peer,id,detail,hl⟩ := hheld
      obtain ⟨process,past,l,w'⟩ := r
      obtain rfl : l = .inbox (.setStatus peer id .held detail) := hl
      have hfinds : Finds past (peer,id) (· ≠ none) := hjudged
      obtain ⟨m,config,row₀,x,hm,hc,hx,hk,hcontent,hreason⟩ := finds_current hr hi hfinds
      have hxk : x.key = (peer,id) := (Table.find_some hx).2
      have hpost : ∀ key, (Step.post (⟨.inbox (.setStatus peer id .held detail),w'⟩ :
          Step World Op)).store.status key = if key = (peer,id) ∧
          w'.store.status key ≠ some .consumed then (w'.store.status key).map fun _ => .held
          else w'.store.status key := fun key => setStatus_status w'.store key
      constructor
      · intro h st hst
        have hex : Excluded ⟨process,past,⟨.inbox (.setStatus peer id .held detail),w'⟩⟩ x := by
          refine ⟨hxk ▸ hx,m,config,by simp [judge,hm,hc],fun he => hreason ?_⟩
          exact holdReason_none_iff.mpr (he.congr hk hcontent.symm)
        have := h x hex
        rw [hxk,hpost,hst] at this
        by_cases hcons : st = .consumed
        · exact Or.inr (Or.inr hcons)
        · rw [if_pos ⟨rfl,by simpa using hcons⟩,Option.map_some] at this
          rcases this with h | ⟨h,-⟩
          · exact Or.inr (Or.inl (Option.some.inj h).symm)
          · exact Or.inl (Option.some.inj h)
      · intro h row hex
        rw [hpost]
        split_ifs with hcond
        · obtain ⟨hkey,hcons⟩ := hcond
          have hst : w'.store.status row.key = some row.status := by
            rw [Store.status,hex.1,Option.map_some]
          have hst' := hst
          rw [hkey] at hst'
          rcases h _ hst' with h | h | h
          · rw [hst,h]
            exact Or.inr ⟨rfl,rfl⟩
          · rw [hst,h]
            exact Or.inl rfl
          · rw [hst,h] at hcons
            exact absurd rfl hcons
        · exact Or.inl rfl
    · have hunread : HoldsUnread r.step := by
        rw [HoldsUnread]
        split
        · rename_i peer id detail hl
          exact absurd ⟨peer,id,detail,hl⟩ hheld
        · trivial
      refine iff_of_true (fun row hex => ?_) hunread
      have hnot := excluded_not_handed hr hex
      have hstep := status_step r.step.label r.step.pre row.key
      obtain ⟨-,m,config,hjudge,-⟩ := hex
      obtain ⟨process,past,l,w'⟩ := r
      rcases hstep with he | he
      · exact Or.inl he
      · cases l with
        | inbox op =>
          cases op with
          | offer config' notice =>
            obtain ⟨hpre,hpost | hpost⟩ := he
            · exact Or.inr ⟨hpre,hpost⟩
            · refine absurd ⟨?_,Or.inl hpost⟩ hnot
              exact fun heq => absurd (hpost.symm.trans (heq.trans hpre)) (by decide)
          | claimWake config' => exact Or.inr he
          | claimForwarding peer id =>
            refine absurd ⟨?_,Or.inr he.2⟩ hnot
            exact fun heq => absurd (he.2.symm.trans (heq.trans he.1)) (by decide)
          | setStatus peer id outcome detail =>
            cases outcome with
            | held => exact absurd ⟨peer,id,detail,rfl⟩ hheld
            | _ => cases hjudge
          | _ => cases hjudge
        | _ => cases hjudge

end

/-- The routing guard in every run of the bridge, from any state. An excluded message is never
handed over or announced and never paid for; and it goes from `received` to `held` only, exactly
if every tick that holds a row finds it unread, or held or acknowledged meanwhile. -/
theorem routing_guard_iff (U : Interp) (honest : Bool) (w : World) (es : Schedule) :
    (∀ r ∈ (bridge U honest).log w es, Safe r) ∧
    ((∀ r ∈ (bridge U honest).log w es, HeldOnly r) ↔
      ∀ r ∈ (bridge U honest).log w es, HoldsUnread r.step) :=
  ⟨fun _ hr => safe_of_log hr,forall₂_congr fun _ hr => heldOnly_iff hr⟩

/-- A machine whose hooks pass the routing check. -/
def hookMachine : Machine := { sampleMachine with
  threadRow := fun _ _ => some {
    sandboxPolicy := str "\x7b\"type\": \"read-only\"\x7d"
    approvalMode := str "on-request"
    archived := false
    model := some (str "gpt 5")
    rolloutPath := some (str "/rollout") } }

/-- The session uses a tool. -/
def sampleToolUse : HookPayload where
  event := .postToolUse
  sessionId := sampleConfig.thread
  transcript := some (str "/rollout")

/-- A second peer. -/
def otherPeer : PeerRecord := { samplePeer with
  key := some (str "51:9")
  pid := some 51
  identity := some (str "51:9") }

/-- The listener's pass reads the configuration; then a second peer is enrolled and sends a
message, which the pass selects; the mode changes to `live`, a hook offers the message, and the pass
goes on. -/
def overheldRun : Schedule :=
  .start 0 (.start {
    thread := sampleId.text
    ownerPid := some 7
    requested := some (.ok samplePeer)
    delivery := some .queue
    socket := str "/run/own.sock" }) :: List.replicate 20 (.step 0) ++
  .start 1 (.serve 50 [false]) :: List.replicate 7 (.step 1) ++
  .start 2 (.start { thread := sampleId.text, requested := some (.ok otherPeer) }) ::
    List.replicate 20 (.step 2) ++
  [.start 3 (.accept (str "51:9") (.message (str "m1") (str "hello") .prompting [])),.step 3] ++
  List.replicate 8 (.step 1) ++
  [.start 4 (.configure .live none),.step 4,.step 4] ++
  .start 5 (.deliver sampleToolUse) :: List.replicate 8 (.step 5) ++ [.step 1]

/-- The tick takes a message back that a hook has offered: it goes from `hook_offered` to `held`. -/
theorem offered_message_held : ¬ ∀ (U : Interp) (honest : Bool) (m : Machine) (es : Schedule),
    ∀ r ∈ (bridge U honest).log (.new m) es, HeldOnly r := by
  intro h
  have hrun : ((bridge .ascii true).log (.new hookMachine) overheldRun).any (fun r =>
      match r.step.label with
      | .inbox (.setStatus peer id .held _) =>
        r.step.pre.store.status (peer,id) = some .hookOffered
      | _ => false) = true := by
    decide +kernel
  obtain ⟨r,hr,hoffered⟩ := List.any_eq_true.mp hrun
  have hunread := (heldOnly_iff hr).mp (h _ _ _ _ r hr)
  rw [HoldsUnread] at hunread
  split at hoffered
  · rename_i peer id detail hl
    rw [hl] at hunread
    simp only [decide_eq_true_eq] at hoffered
    rcases hunread _ hoffered with h | h | h <;> cases h
  · cases hoffered

end PeerChat
