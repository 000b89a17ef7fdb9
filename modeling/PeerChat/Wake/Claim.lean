import PeerChat.Hooks.Deliver

/-! The claim of an idle wake. -/
namespace PeerChat.Wake
open Python

/-- The conditions that the claim checks before it looks for a message. -/
def mayClaim (k : Meta) : Bool :=
  k.phase = some .idle && available k.remaining && available (wakesLeft k) && k.wakePending = none

/-- The loop over the received rows: those that cannot be delivered are held on the way to the
first that can. -/
def holdUndeliverable (m : Machine) (config : Config) :
    List MessageRow → Store → Store × Option MessageRow
  | [], s => (s,none)
  | row::rows, s =>
    match holdReason m config row with
    | some reason => holdUndeliverable m config rows
        (s.setRows (fun r => isRow row r && r.status = .received) .held reason)
    | none => (s,some row)

/-- The row that the transaction claims, if any. -/
def claimed (m : Machine) (config : Config) (s : Store) : Option MessageRow :=
  if mayClaim s.keys then (holdUndeliverable m config s.pending s).2 else none

/-- The two keys that a claim writes. -/
def claimKeys (now : Time) (id : Str) (k : Meta) : Meta :=
  { k with
    wakePending := some ⟨id,.writing,now,none⟩
    wakeRemaining := (wakesLeft k).map spend }

/-- The transaction. -/
def claim (m : Machine) (config : Config) (s : Store) : Store :=
  if mayClaim s.keys then
    match holdUndeliverable m config s.pending s with
    | (s,some row) => s.setKeys (claimKeys m.now row.id)
    | (s,none) => s
  else s

end PeerChat.Wake
