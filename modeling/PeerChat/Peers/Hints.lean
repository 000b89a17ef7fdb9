import PeerChat.Peers.Resolve
import PeerChat.Python.JsonObject
import PeerChat.Relational.UniqueMatch

/-! Who a connection to the listener comes from: the scan over all enrolled peers, and the hints that
remember which peer a process was before. -/
namespace PeerChat
open Python Relational

def MAX_CLIENTS : ℕ := 16

/-- `verify_peer(client, endpoint)` for a client of this user. -/
def verifyPeer (m : Machine) (pid : Pid) (e : Endpoint) : Except Exc Unit :=
  if pid ≠ e.pid then .error (valueError "Connected process is not the invited peer pid")
  else if m.processIdentity pid ≠ some e.identity then
    .error (valueError "Invited peer process ended or changed; invite its replacement explicitly")
  else .ok ()

/-- The endpoint of a record, if it is verified as the connected process. -/
def verifiedEndpoint (m : Machine) (pid : Pid) (record : PeerRecord) : Option Endpoint :=
  match resolvePeer m record with
  | .error _ => none
  | .ok e =>
    match verifyPeer m pid e with
    | .error _ => none
    | .ok () => some e

/-- The body of the loop over the enrolled peers. -/
def matchPeer (m : Machine) (pid : Pid) (record : PeerRecord) : Option Endpoint :=
  if record.kind = some .claude ∧ record.pid ≠ some pid then none
  else
    match resolvePeer m record with
    | .error _ => none
    | .ok e =>
      if e.pid = pid then
        match verifyPeer m pid e with
        | .error _ => none
        | .ok () => some e
      else none

/-- A connection, and the world in which it is accepted. -/
structure Connection where
  machine : Machine
  /-- The configuration that the loop has read last. -/
  config : Config
  pid : Pid
  sameUser : Bool := true
  /-- The number of clients that are connected already. -/
  clients : ℕ := 0

def Connection.enrolled (c : Connection) : List (Str × PeerRecord) :=
  allPeers c.machine c.config.toPeerTable

/-- `sender_keys` and `enrollment_snapshot`. The snapshot is a text with sorted keys, so that two of
them are equal where one table is a permutation of the other. -/
structure Hints where
  senderKeys : List (Pid × Str) := []
  snapshot : Option (List (Str × PeerRecord)) := none

/-- A connection that gets as far as the search for its sender. -/
def Connection.admitted (c : Connection) : Bool := c.clients < MAX_CLIENTS && c.sameUser

/-- The hints, unless another enrollment has made them void. -/
def Hints.refresh (s : Hints) (enrolled : List (Str × PeerRecord)) : Hints :=
  if s.snapshot.any (·.isPerm enrolled) then s else ⟨[],some enrolled⟩

/-- The peer that the hint of a process names, if it is still that peer. -/
def Hints.hinted (s : Hints) (c : Connection) : Option (Str × Endpoint) :=
  (s.senderKeys.lookup c.pid).bind fun key => (c.enrolled.lookup key).bind fun record =>
    (verifiedEndpoint c.machine c.pid record).map fun e => (key,e)

/-- The search of the accept step, with the peer that it attributes the connection to. -/
def Hints.accept (s : Hints) (c : Connection) : Hints × Option (Str × Endpoint) :=
  if ¬ c.admitted then (s,none)
  else
    let s := s.refresh c.enrolled
    match s.hinted c with
    | some (key,e) => ({ s with senderKeys := Dict.set s.senderKeys c.pid key },some (key,e))
    | none =>
      -- a hint that fails is dropped; a hint for a key that is enrolled no more stays
      let dropped := match (s.senderKeys.lookup c.pid).bind fun key => c.enrolled.lookup key with
        | some _ => { s with senderKeys := Dict.pop s.senderKeys c.pid }
        | none => s
      match unique (scan (matchPeer c.machine c.pid) c.enrolled) with
      | some (key,e) =>
        ({ dropped with senderKeys := Dict.set dropped.senderKeys c.pid key },some (key,e))
      | none => (dropped,none)

/-- The decision of the full scan in the current world. -/
def fullScan (c : Connection) : Option (Str × Endpoint) :=
  if c.admitted then unique (scan (matchPeer c.machine c.pid) c.enrolled) else none

/-- The accept steps of a history, each with the hints before it. -/
def acceptSteps (s : Hints) : List Connection → List (Hints × Connection)
  | [] => []
  | c::cs => (s,c) :: acceptSteps (s.accept c).1 cs

/-! What a hint finds, the scan finds. -/

/-- A Claude record resolves to the process that it names. -/
lemma resolvePeer_pid {m : Machine} {record : PeerRecord} {e : Endpoint}
    (hkind : record.kind = some .claude) (h : resolvePeer m record = .ok e) :
    record.pid = some e.pid := by
  unfold resolvePeer at h
  rw [if_neg (by simp [hkind])] at h
  cases hnormal : normalise m record with
  | none =>
    rw [hnormal] at h
    cases h
  | some found =>
    obtain ⟨key,r⟩ := found
    rw [hnormal] at h
    have hr : r.kind = some .claude ∧ r.pid = record.pid := by
      unfold normalise at hnormal
      rw [hkind] at hnormal
      dsimp only at hnormal
      split at hnormal
      · split_ifs at hnormal
        cases hnormal
        exact ⟨rfl,rfl⟩
      · cases hnormal
    change (if r.kind = some .codex then _ else resolveClaude m r) = _ at h
    rw [if_neg (by simp [hr.1])] at h
    unfold resolveClaude at h
    split at h
    · rename_i pid identity socket hpid _ _
      split_ifs at h
      cases hsocket : checkSocket m socket "claude peer" with
      | error exc =>
        rw [hsocket] at h
        cases h
      | ok path =>
        rw [hsocket] at h
        cases h
        rw [← hr.2,hpid]
    · cases h

lemma verifyPeer_pid {m : Machine} {pid : Pid} {e : Endpoint} (h : verifyPeer m pid e = .ok ()) :
    e.pid = pid := by
  unfold verifyPeer at h
  split_ifs at h with hpid
  exact (not_not.mp hpid).symm

/-- Checking one peer is what the scan does with it. -/
lemma verifiedEndpoint_eq (m : Machine) (pid : Pid) (record : PeerRecord) :
    verifiedEndpoint m pid record = matchPeer m pid record := by
  unfold verifiedEndpoint matchPeer
  cases hr : resolvePeer m record with
  | error exc =>
    simp only [ite_self]
  | ok e =>
    cases hv : verifyPeer m pid e with
    | error exc =>
      simp only [hv,ite_self]
    | ok u =>
      have hpid := verifyPeer_pid hv
      have hguard : ¬ (record.kind = some .claude ∧ record.pid ≠ some pid) := by
        intro hother
        rw [resolvePeer_pid hother.1 hr,hpid] at hother
        exact hother.2 rfl
      simp only [if_neg hguard,if_pos hpid,hv]

/-- The hint of a process hides another peer that it is as well. -/
def Overlooked (s : Hints) (c : Connection) : Prop := c.admitted = true ∧
  ∃ key e, (s.refresh c.enrolled).hinted c = some (key,e) ∧
    ∃ p ∈ c.enrolled, p.1 ≠ key ∧ (matchPeer c.machine c.pid p.2).isSome = true

/-! One accept step. -/

lemma accept_hinted {s : Hints} {c : Connection} {found : Str × Endpoint}
    (hadmitted : c.admitted = true) (h : (s.refresh c.enrolled).hinted c = some found) :
    (s.accept c).2 = some found := by
  unfold Hints.accept
  rw [if_neg (not_not_intro hadmitted)]
  simp only [h]

lemma accept_scanned {s : Hints} {c : Connection} (hadmitted : c.admitted = true)
    (h : (s.refresh c.enrolled).hinted c = none) :
    (s.accept c).2 = unique (scan (matchPeer c.machine c.pid) c.enrolled) := by
  unfold Hints.accept
  rw [if_neg (not_not_intro hadmitted)]
  simp only [h]
  cases unique (scan (matchPeer c.machine c.pid) c.enrolled) <;> rfl

lemma accept_refused {s : Hints} {c : Connection} (hadmitted : ¬ c.admitted = true) :
    (s.accept c).2 = none := by
  unfold Hints.accept
  rw [if_pos hadmitted]

lemma hinted_match {s : Hints} {c : Connection} {key : Str} {e : Endpoint}
    (h : s.hinted c = some (key,e)) :
    ∃ record, (key,record) ∈ c.enrolled ∧ matchPeer c.machine c.pid record = some e := by
  obtain ⟨k,-,h⟩ := Option.bind_eq_some_iff.mp h
  obtain ⟨record,hlookup,h⟩ := Option.bind_eq_some_iff.mp h
  obtain ⟨e',hverified,heq⟩ := Option.map_eq_some_iff.mp h
  cases heq
  rw [verifiedEndpoint_eq] at hverified
  obtain ⟨before,rest,htable,-⟩ := List.lookup_eq_some_iff.mp hlookup
  exact ⟨record,by rw [htable]; simp,hverified⟩

lemma accept_agrees_iff (s : Hints) (c : Connection) :
    (s.accept c).2 = fullScan c ↔ ¬ Overlooked s c := by
  by_cases hadmitted : c.admitted = true
  · have hfull : fullScan c = unique (scan (matchPeer c.machine c.pid) c.enrolled) :=
      if_pos hadmitted
    rw [hfull]
    cases hhint : (s.refresh c.enrolled).hinted c with
    | none =>
      rw [accept_scanned hadmitted hhint]
      constructor
      · intro _ hover
        obtain ⟨-,key,e,hsome,-⟩ := hover
        rw [hhint] at hsome
        cases hsome
      · intro _
        rfl
    | some found =>
      obtain ⟨key,e⟩ := found
      obtain ⟨record,hrecord,hmatch⟩ := hinted_match hhint
      have hkeys : (c.enrolled.map Prod.fst).Nodup := allPeers_nodup c.machine c.config.toPeerTable
      rw [accept_hinted hadmitted hhint,eq_comm,unique_scan_iff hkeys hrecord hmatch]
      constructor
      · intro hall hover
        obtain ⟨-,key',e',hsome,p,hp,hne,hother⟩ := hover
        rw [hhint] at hsome
        cases hsome
        exact hne (hall p hp hother)
      · intro hnot p hp hother
        by_contra hne
        exact hnot ⟨hadmitted,key,e,hhint,p,hp,hne,hother⟩
  · rw [accept_refused hadmitted]
    have hfull : fullScan c = none := if_neg hadmitted
    rw [hfull]
    constructor
    · intro _ hover
      exact hadmitted hover.1
    · intro _
      rfl

/-- Over a whole history, the hints decide like the full scan exactly where no hint hides another peer
that the process is as well. -/
theorem hints_agree_iff (cs : List Connection) :
    (∀ x ∈ acceptSteps {} cs, (x.1.accept x.2).2 = fullScan x.2) ↔
      ∀ x ∈ acceptSteps {} cs, ¬ Overlooked x.1 x.2 := by
  constructor
  · intro h x hx
    exact (accept_agrees_iff x.1 x.2).mp (h x hx)
  · intro h x hx
    exact (accept_agrees_iff x.1 x.2).mpr (h x hx)

/-! A process that becomes a second peer. -/

def claudePeer : PeerRecord where
  kind := some .claude
  pid := some 41
  identity := some (str "41:9")
  socket := some (str "/run/peer.sock")

def codexPeer : PeerRecord where
  kind := some .codex
  thread := some (str "2f1e3c80-9a5b-4c1d-8e7f-0123456789ab")
  codexHome := some (str "/h")
  stateRoot := some (str "/s")

def pairConfig : Config where
  peers := some [(str "41:9",claudePeer),(str "codex",codexPeer)]
  thread := str "0b7c9d10-1a2b-4c3d-8e4f-5a6b7c8d9e0f"
  socket := str "/run/own.sock"
  codexHome := str "/home/u/.codex"
  ownerPid := 7
  ownerIdentity := str "7:1"

/-- The Claude peer lives; there is no bridge of the Codex peer. -/
def singleMachine : Machine := { Machine.bare with
  processIdentity := fun pid =>
    if pid = 41 then some (str "41:9") else if pid = 7 then some (str "7:1") else none
  lstat := fun _ => .ok ⟨true,true⟩
  isAbsolute := fun _ => true }

/-- The bridge of the Codex peer names the Claude peer's process as its listener. -/
def doubleMachine : Machine := { singleMachine with
  counterpart := fun _ thread => .ok {
    thread := some thread
    codexHome := some (str "/h")
    ownerPid := some 7
    ownerIdentity := some (str "7:1")
    socket := some (str "/c.sock")
    runtimePid := some 41
    runtimeIdentity := some (str "41:9")
    runtimeSocket := none }
  lockOwner := fun _ _ => some (str "7:1") }

/-- The process connects before and after. -/
def doubledHistory : List Connection :=
  [{ machine := singleMachine, config := pairConfig, pid := 41 },
   { machine := doubleMachine, config := pairConfig, pid := 41 }]

theorem hint_hides_second : ¬ ∀ cs, ∀ x ∈ acceptSteps {} cs, (x.1.accept x.2).2 = fullScan x.2 := by
  intro h
  have hall := h doubledHistory
  have hdecisions : (acceptSteps {} doubledHistory).map
      (fun x => ((x.1.accept x.2).2.isSome,(fullScan x.2).isSome)) = [(true,true),(true,false)] := by
    decide +kernel
  have hsame : ∀ y ∈ (acceptSteps {} doubledHistory).map
      (fun x => ((x.1.accept x.2).2.isSome,(fullScan x.2).isSome)), y.1 = y.2 := by
    intro y hy
    obtain ⟨x,hx,rfl⟩ := List.mem_map.mp hy
    exact congrArg Option.isSome (hall x hx)
  rw [hdecisions] at hsame
  exact absurd (hsame (true,false) (by simp)) (by decide)

end PeerChat
