import PeerChat.Bridge.Lifecycle

/-! Writes of the saved configuration and of the stop flag. -/
namespace PeerChat
open Python

/-- `_legacy_mirror`. -/
def legacyMirror (r : PeerRecord) : LegacyPeer :=
  ⟨r.pid,r.identity,r.socket,some (r.name.getD (str "Claude"))⟩

/-- `enroll`'s new table: the record is merged, and the first Claude peer mirrored. -/
def enrollTable (m : Machine) (key : Str) (record : PeerRecord) (t : PeerTable) : PeerTable :=
  let peers := Dict.set (allPeers m t) key record
  { peers := some peers
    peer := match peers.find? fun p => p.2.kind = some .claude with
      | some p => some (legacyMirror p.2)
      | none => t.peer }

def Config.withTable (c : Config) (t : PeerTable) : Config := { c with peers := t.peers, peer := t.peer }

/-- The transaction of `enroll`, for a record with its key; the callers have saved a
configuration before. -/
def enroll (m : Machine) (key : Str) (record : PeerRecord) (k : Meta) : Meta :=
  { k with config := k.config.map fun c => c.withTable (enrollTable m key record c.toPeerTable) }

/-- The transaction of `stop`, with the configuration it has read before. -/
def stopBridge (read : Option Config) (k : Meta) : Meta :=
  { k with
    config := match read with
      | some c => k.config.map fun _ => { c with supervision := false }
      | none => k.config
    stop := true }

/-- The transaction of `start_bridge` for a changed owner. -/
def changeOwner (forgetHook : Bool) (k : Meta) : Meta :=
  { k with
    phase := if forgetHook then some .unknown else k.phase
    hookSeen := if forgetHook then none else k.hookSeen
    wakePending := none }

/-- The transaction with which `connect` changes the default destination. -/
def setDefaultPeer (key : Str) (k : Meta) : Meta :=
  { k with config := k.config.map fun c => { c with defaultPeer := some key } }

/-- The transaction of `enable_supervision`; a stopped bridge stays as it is. -/
def setSupervision (k : Meta) : Meta :=
  if k.stop then k else { k with config := k.config.map fun c => { c with supervision := true } }

end PeerChat
