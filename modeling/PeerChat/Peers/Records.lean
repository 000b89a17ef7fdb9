import PeerChat.Machine
import PeerChat.Python.Dict
import PeerChat.Python.Sha256
import PeerChat.Python.Uuid

/-! Peer records, the saved configuration, and the enrollment table `all_peers`. Records are
dictionaries in the source; here every key the code reads is an optional field. -/
namespace PeerChat
open Python

inductive PeerKind
  | claude
  | codex
  /-- Any other text; such a record is rejected. -/
  | other (text : Str)
  deriving DecidableEq

structure PeerRecord where
  kind : Option PeerKind := none
  key : Option Str := none
  name : Option Str := none
  pid : Option Pid := none
  identity : Option Str := none
  socket : Option Str := none
  thread : Option Str := none
  codexHome : Option Str := none
  stateRoot : Option Str := none
  ownerIdentity : Option Str := none
  session : Option Str := none
  enrolledAt : Option Time := none
  enrolledBy : Option Str := none
  deriving DecidableEq

/-- The single peer of configurations saved before the table existed. -/
structure LegacyPeer where
  pid : Option Pid
  identity : Option Str
  socket : Option Str
  name : Option Str
  deriving DecidableEq

/-- The part of a configuration that says who is enrolled. -/
structure PeerTable where
  peers : Option (List (Str × PeerRecord)) := none
  peer : Option LegacyPeer := none
  deriving DecidableEq

structure Config extends PeerTable where
  thread : Str
  socket : Str
  codexHome : Str
  ownerPid : Pid
  ownerIdentity : Str
  codexBin : Str := []
  supervision : Bool := false
  defaultPeer : Option Str := none
  deriving DecidableEq

/-- `config.get("peer", {}).get("identity")`. -/
def Config.legacyIdentity (c : Config) : Option Str := c.peer.bind (·.identity)

/-- A valid id in lower case throughout. -/
def validUuid (value : Str) : Bool := validId value && value == lower value

/-- A non-blank absolute path, resolved. -/
def absoluteRoot (m : Machine) (value : Option Str) : Option Str :=
  match value with
  | some v => if strip v ≠ [] ∧ m.isAbsolute v then some (m.resolve v) else none
  | none => none

def canonicalHome (m : Machine) (codexHome : Str) : Str := m.resolve codexHome

/-- The key of a Codex peer; none where the path has no UTF-8 form. -/
def codexKey (m : Machine) (codexHome thread : Str) : Option Str :=
  (Utf8.encode (canonicalHome m codexHome)).map fun bytes =>
    str "codex:" ++ (Sha256.hexdigest bytes).take 16 ++ str ":" ++ thread

/-- `_normalise`: the canonical record with its key, or none. -/
def normalise (m : Machine) (record : PeerRecord) : Option (Str × PeerRecord) :=
  let named (key : Str) (out : PeerRecord) : Str × PeerRecord :=
    (key,{ out with key := some key, name := some (out.name.getD (key.take 8)) })
  match record.kind with
  | some (.other _) => none
  | some .codex =>
    match record.thread, record.codexHome, absoluteRoot m record.stateRoot with
    | some thread, some home, some root =>
      if validUuid thread ∧ strip home ≠ [] ∧ m.isAbsolute home then
        let home := canonicalHome m home
        (codexKey m home thread).map fun key =>
          named key { record with codexHome := some home, stateRoot := some root }
      else none
    | _, _, _ => none
  | _ =>
    match record.identity, record.pid, record.socket with
    | some identity, some pid, some socket =>
      if identity ≠ [] ∧ 0 < pid ∧ socket ≠ [] then
        some (named identity { record with kind := some .claude })
      else none
    | _, _, _ => none

/-- The legacy record as a Claude record. -/
def LegacyPeer.toRecord (legacy : LegacyPeer) : PeerRecord where
  kind := some .claude
  pid := legacy.pid
  identity := legacy.identity
  socket := legacy.socket
  name := some ((legacy.name.filter (· ≠ [])).getD (str "Claude"))
  enrolledBy := some (str "legacy")

/-- `peers` is the authority; the legacy record counts only when no table exists. -/
def allPeers (m : Machine) (config : PeerTable) : List (Str × PeerRecord) :=
  match config.peers with
  | some peers =>
    peers.foldl (fun out p => match normalise m p.2 with
      | some (key,record) => Dict.set out key record
      | none => out) []
  | none =>
    match config.peer with
    | some legacy =>
      match normalise m legacy.toRecord with
      | some (key,record) => [(key,record)]
      | none => []
    | none => []

/-- `key in all_peers(config)`. -/
def enrolled (m : Machine) (config : Config) (key : Str) : Bool :=
  (allPeers m config.toPeerTable).any (·.1 == key)

/-- `routed_config(config, key)["peer"]`. -/
def routedPeer (m : Machine) (config : Config) (key : Option Str) : Except Exc PeerRecord :=
  match key.bind fun k => (allPeers m config.toPeerTable).lookup k with
  | some record => .ok record
  | none => .error (valueError "Message peer is no longer enrolled")

variable {m : Machine}

/-- A record that the table yields is complete. -/
lemma normalise_complete {r r' : PeerRecord} {key : Str} (h : normalise m r = some (key,r')) :
    r'.kind = some .codex ∨
      ∃ pid identity socket, r'.pid = some pid ∧ r'.identity = some identity ∧
        r'.socket = some socket := by
  unfold normalise at h
  dsimp only at h
  split at h
  · cases h
  · rename_i hkind
    split at h
    · split_ifs at h
      · obtain ⟨k,-,hk⟩ := Option.map_eq_some_iff.mp h
        cases hk
        exact Or.inl hkind
    · cases h
  · split at h
    · rename_i identity pid socket hidentity hpid hsocket
      split_ifs at h
      · cases h
        exact Or.inr ⟨pid,_,socket,hpid,hidentity,hsocket⟩
    · cases h

/-- A record that is in the table, or stands for the legacy peer. -/
def PeerTable.Holds (t : PeerTable) (r : PeerRecord) : Prop :=
  (∃ peers, t.peers = some peers ∧ ∃ key, (key,r) ∈ peers) ∨
    ∃ legacy, t.peer = some legacy ∧ r = legacy.toRecord

/-- Every entry that is read is the normal form of a record that the table holds. -/
lemma mem_allPeers {t : PeerTable} {p : Str × PeerRecord} (h : p ∈ allPeers m t) :
    ∃ r, t.Holds r ∧ normalise m r = some p := by
  unfold allPeers at h
  split at h
  · rename_i table htable
    refine List.foldlRecOn (motive := fun out => ∀ q ∈ out, ∃ r, t.Holds r ∧ normalise m r = some q)
      table _ (fun q hq => absurd hq List.not_mem_nil) ?_ p h
    intro out hout a ha
    split
    · rename_i key record hnormal
      intro q hq
      obtain rfl | hq := Dict.mem_set hq
      · exact ⟨a.2,Or.inl ⟨table,htable,a.1,ha⟩,hnormal⟩
      · exact hout q hq
    · exact hout
  · split at h
    · rename_i legacy hlegacy
      split at h
      · rename_i key record hnormal
        obtain rfl := List.mem_singleton.mp h
        exact ⟨_,Or.inr ⟨legacy,hlegacy,rfl⟩,hnormal⟩
      · cases h
    · cases h

/-- No key of the table comes twice. -/
lemma allPeers_nodup (m : Machine) (t : PeerTable) : (Dict.keys (allPeers m t)).Nodup := by
  unfold allPeers
  split
  · rename_i table _
    refine List.foldlRecOn (motive := fun out => (Dict.keys out).Nodup) table _ List.nodup_nil ?_
    intro out hout a _
    split
    · exact Dict.nodup_set hout _ _
    · exact hout
  · split
    · split
      · exact List.nodup_singleton _
      · exact List.nodup_nil
    · exact List.nodup_nil

end PeerChat
