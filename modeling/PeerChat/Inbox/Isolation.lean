import PeerChat.Programs.Inbox
import PeerChat.Python.Dict
import PeerChat.System.Bridge

/-! What one peer's frames leave in the store. The rows and the notice of a peer are a view of the
store that only this peer's own frames act on, so no other peer's frames, nor their order among
them, can be seen in it. -/
namespace PeerChat
open Python Relational Wire Interleaving

/-- A call of `Store.accept`, and the clock when it is made. -/
structure Call where
  now : Time
  peer : Str
  frame : Frame

instance : Acts Call World where
  apply c w := (accept c.peer c.frame).run { w with machine := { w.machine with now := c.now } }

/-- The frames of one peer, in their order. -/
def framesOf (peer : Str) (calls : List Call) : List Frame :=
  (calls.filter (·.peer = peer)).map (·.frame)

/-! The view, without times. -/

def MessageRow.untimed (r : MessageRow) : MessageRow := { r with created := 0 }
def ReceiptRow.untimed (r : ReceiptRow) : ReceiptRow := { r with created := 0 }
def Notice.untimed (n : Notice) : Notice := { n with time := 0 }

/-- The outgoing row is addressed to the peer: by its key, or as a row from before there were keys. -/
def OutgoingRow.belongs (r : OutgoingRow) (config : Option Config) (peer : Str) : Bool :=
  r.peer = some peer || (r.peer = none && config.bind (·.legacyIdentity) = some peer)

/-- What the store holds of one peer, by message id. -/
@[ext] structure PeerView where
  message : Str → Option MessageRow
  receipt : Str → Option ReceiptRow
  sent : Str → Option OutgoingRow
  notice : Option Notice

def peerView (peer : Str) (w : World) : PeerView where
  message id := (w.store.messages.find (peer,id)).map (·.untimed)
  receipt id := (w.store.receipts.find (peer,id)).map (·.untimed)
  sent id := (w.store.outgoing.find id).filter (·.belongs w.store.keys.config peer)
  notice := (w.store.keys.peerNotices.lookup peer).map (·.untimed)

/-- What a receipt does to a row that is addressed to its peer. -/
def OutgoingRow.received (body : Receipt) (r : OutgoingRow) : OutgoingRow :=
  { r with status := .peer body, detail := str "Peer receipt: " ++ body.text }

/-- The effect of a peer's own frame: the first message with an id stays, the last receipt counts,
a notice replaces the one before. -/
def PeerView.accept (peer : Str) (v : PeerView) : Frame → PeerView
  | .message id body mode hops => { v with
      message := Function.update v.message id
        (some ((v.message id).getD ⟨peer,id,body,mode,hops,.received,[],0⟩)) }
  | .receipt id body =>
    if (v.receipt id).map (·.body) = some body then v
    else { v with
      receipt := Function.update v.receipt id (some ⟨peer,id,body,0⟩)
      sent := Function.update v.sent id ((v.sent id).map fun r =>
        r.received body) }
  | .notice state warning remaining => { v with notice := some ⟨0,state,remaining,warning⟩ }

/-! The view follows the store. -/

lemma find_acceptMessage (s : Store) (now : Time) (peer id body : Str) (mode : Mode)
    (hops : List Str) (key : Str × Str) :
    (s.acceptMessage now peer id body mode hops).messages.find key =
      if key = (peer,id) then
        some ((s.messages.find key).getD ⟨peer,id,body,mode,hops,.received,[],now⟩)
      else s.messages.find key := Table.find_insert ..

lemma find_acceptReceipt (s : Store) (now : Time) (peer id : Str) (body : Receipt)
    (key : Str × Str) : (s.acceptReceipt now peer id body).receipts.find key =
      if key = (peer,id) then some ⟨peer,id,body,now⟩ else s.receipts.find key :=
  Table.find_replace ..

/-- A receipt marks rows, and no row changes hands. -/
lemma sent_acceptReceipt (s : Store) (now : Time) (other mid : Str) (body : Receipt)
    (peer id : Str) : ((s.acceptReceipt now other mid body).outgoing.find id).filter
        (·.belongs s.keys.config peer) =
      ((s.outgoing.find id).filter (·.belongs s.keys.config peer)).map fun r =>
        if s.addressedTo other mid r then r.received body else r := by
  have hfind : (s.acceptReceipt now other mid body).outgoing.find id =
      (s.outgoing.find id).map fun r => if s.addressedTo other mid r then r.received body else r :=
    Table.find_update s.outgoing (s.addressedTo other mid) (·.received body) (fun _ => rfl) id
  rw [hfind]
  cases s.outgoing.find id with
  | none => rfl
  | some r =>
    have hsame : (if s.addressedTo other mid r then r.received body else r).belongs s.keys.config
        peer = r.belongs s.keys.config peer := by
      split_ifs <;> rfl
    rw [Option.map_some,Option.filter_some,Option.filter_some,hsame]
    by_cases hb : r.belongs s.keys.config peer = true
    · rw [if_pos hb,if_pos hb,Option.map_some]
    · rw [if_neg hb,if_neg hb,Option.map_none]

lemma belongs_addressedTo {s : Store} {peer : Str} {r : OutgoingRow}
    (h : r.belongs s.keys.config peer = true) : s.addressedTo peer r.id r = true := by
  simp only [OutgoingRow.belongs,Bool.or_eq_true,Bool.and_eq_true,decide_eq_true_eq] at h
  simp only [Store.addressedTo,decide_true,Bool.true_and,Bool.or_eq_true,Bool.and_eq_true,
    decide_eq_true_eq]
  rcases h with h | ⟨hn,hl⟩
  · exact Or.inl h
  · refine Or.inr ⟨hn,?_⟩
    cases hc : s.keys.config with
    | none => rfl
    | some config =>
      rw [hc] at hl
      simpa using hl

/-- An outgoing row of one peer is not addressed to another. -/
lemma belongs_other {s : Store} {peer other mid : Str} {r : OutgoingRow} (hne : other ≠ peer)
    (h : r.belongs s.keys.config peer = true) : s.addressedTo other mid r = false := by
  simp only [OutgoingRow.belongs,Bool.or_eq_true,Bool.and_eq_true,decide_eq_true_eq] at h
  simp only [Store.addressedTo]
  rcases h with h | ⟨hn,hl⟩
  · simp [h,Ne.symm hne]
  · cases hc : s.keys.config with
    | none => rw [hc] at hl; cases hl
    | some config =>
      rw [hc] at hl
      have hl' : config.legacyIdentity = some peer := hl
      simp [hn,hl',Ne.symm hne]

/-! The three calls. -/

variable (now : Time) (peer : Str) (w : World)

lemma apply_message (mid body : Str) (mode : Mode) (hops : List Str) :
    (apply (⟨now,peer,.message mid body mode hops⟩ : Call) w).store =
      w.store.acceptMessage now peer mid body mode hops := rfl

lemma apply_notice (state warning : Str) (remaining : Option Budget) :
    (apply (⟨now,peer,.notice state warning remaining⟩ : Call) w).store =
      w.store.setKeys fun k => { k with
        peerNotices := Dict.set w.store.keys.peerNotices peer ⟨now,state,remaining,warning⟩ } := rfl

lemma apply_receipt (mid : Str) (body : Receipt) :
    (apply (⟨now,peer,.receipt mid body⟩ : Call) w).store =
      if (w.store.receipts.find (peer,mid)).map (·.body) = some body then w.store
      else w.store.acceptReceipt now peer mid body := by
  change ((accept peer (.receipt mid body)).run { w with machine := { w.machine with now := now } }).store = _
  simp only [accept,read_bind,Prog.run,apply_look]
  split_ifs <;> rfl

variable {now peer w}

/-- A frame of another peer does not show. -/
lemma peerView_other {c : Call} (hne : c.peer ≠ peer) : peerView peer (apply c w) = peerView peer w := by
  obtain ⟨now,other,frame⟩ := c
  have hkey : ∀ id mid : Str, ¬ ((peer,id) = (other,mid)) := fun id mid h =>
    hne (congrArg Prod.fst h).symm
  cases frame with
  | message mid body mode hops =>
    simp only [peerView,apply_message]
    ext1
    · funext id
      dsimp only
      rw [find_acceptMessage,if_neg (hkey id mid)]
    · rfl
    · rfl
    · rfl
  | receipt mid body =>
    simp only [peerView,apply_receipt]
    split_ifs
    · rfl
    · ext1
      · rfl
      · funext id
        dsimp only
        rw [find_acceptReceipt,if_neg (hkey id mid)]
      · funext id
        refine (sent_acceptReceipt w.store now other mid body peer id).trans ?_
        dsimp only
        cases hf : (w.store.outgoing.find id).filter (·.belongs w.store.keys.config peer) with
        | none => rfl
        | some r =>
          have hb := Option.filter_eq_some_iff.mp hf
          rw [Option.map_some,belongs_other hne hb.2]
          rfl
      · rfl
  | notice state warning remaining =>
    simp only [peerView,apply_notice]
    ext1
    · rfl
    · rfl
    · rfl
    · dsimp only [Store.setKeys_keys]
      rw [Dict.lookup_set,if_neg (Ne.symm hne)]

/-- A frame of the peer acts on its view. -/
lemma peerView_own {c : Call} (he : c.peer = peer) :
    peerView peer (apply c w) = (peerView peer w).accept peer c.frame := by
  obtain ⟨now,other,frame⟩ := c
  obtain rfl : other = peer := he
  cases frame with
  | message mid body mode hops =>
    simp only [peerView,apply_message,PeerView.accept]
    ext1
    · funext id
      dsimp only
      rw [find_acceptMessage,Function.update_apply]
      by_cases hid : id = mid
      · subst hid
        rw [if_pos rfl,if_pos rfl]
        cases w.store.messages.find (other,id) <;> rfl
      · rw [if_neg (fun h => hid (congrArg Prod.snd h)),if_neg hid]
    · rfl
    · rfl
    · rfl
  | receipt mid body =>
    have hprior : ((w.store.receipts.find (other,mid)).map (·.untimed)).map (·.body) =
        (w.store.receipts.find (other,mid)).map (·.body) := by
      rw [Option.map_map]
      rfl
    simp only [peerView,apply_receipt,PeerView.accept,hprior]
    split_ifs
    · rfl
    · ext1
      · rfl
      · funext id
        dsimp only
        rw [find_acceptReceipt,Function.update_apply]
        by_cases hid : id = mid
        · subst hid
          rw [if_pos rfl,if_pos rfl]
          rfl
        · rw [if_neg (fun h => hid (congrArg Prod.snd h)),if_neg hid]
      · funext id
        refine (sent_acceptReceipt w.store now other mid body other id).trans ?_
        dsimp only
        rw [Function.update_apply]
        cases hf : (w.store.outgoing.find id).filter (·.belongs w.store.keys.config other) with
        | none =>
          split_ifs with hid
          · subst hid
            rw [hf]
            rfl
          · rfl
        | some r =>
          obtain ⟨hfind,hb⟩ := Option.filter_eq_some_iff.mp hf
          have hrid : r.id = id := (Table.find_some hfind).2
          by_cases hid : id = mid
          · subst hid
            rw [if_pos rfl,hf,Option.map_some,Option.map_some,← hrid,belongs_addressedTo hb]
            rfl
          · have hnot : w.store.addressedTo other mid r = false := by
              simp [Store.addressedTo,hrid,hid]
            rw [if_neg hid,Option.map_some,hnot]
            rfl
      · rfl
  | notice state warning remaining =>
    simp only [peerView,apply_notice,PeerView.accept]
    ext1
    · rfl
    · rfl
    · rfl
    · dsimp only [Store.setKeys_keys]
      rw [Dict.lookup_set,if_pos rfl]
      rfl

/-- A peer's view after any calls is the one that its own frames make. -/
theorem peerView_after (w : World) (calls : List Call) :
    peerView peer (after w calls) =
      (framesOf peer calls).foldl (PeerView.accept peer) (peerView peer w) := by
  rw [framesOf,List.foldl_map]
  exact after_view (fun c w h => peerView_own (by simpa using h))
    (fun c w h => peerView_other (by simpa using h)) w calls

/-! The conflict rules: for messages the first frame counts, for receipts the last. -/

/-- The row of the first message with an id. -/
def firstMessage (peer id : Str) : List Frame → Option MessageRow :=
  List.findSome? fun
    | .message mid body mode hops =>
      if mid = id then some ⟨peer,id,body,mode,hops,.received,[],0⟩ else none
    | _ => none

/-- The body of the last receipt for an id. -/
def lastReceipt (id : Str) (frames : List Frame) : Option Receipt :=
  frames.reverse.findSome? fun
    | .receipt mid body => if mid = id then some body else none
    | _ => none

lemma message_foldl (frames : List Frame) (v : PeerView) (id : Str) :
    (frames.foldl (PeerView.accept peer) v).message id =
      (v.message id).or (firstMessage peer id frames) := by
  induction frames generalizing v with
  | nil => simp [firstMessage]
  | cons frame frames ih =>
    rw [List.foldl_cons,ih,firstMessage,List.findSome?_cons]
    cases frame with
    | message mid body mode hops =>
      simp only [PeerView.accept,Function.update_apply]
      by_cases hid : id = mid
      · subst hid
        cases v.message id <;> simp
      · rw [if_neg hid,if_neg (Ne.symm hid)]
    | receipt mid body =>
      simp only [PeerView.accept]
      split_ifs
      · rfl
      · rfl
    | notice state warning remaining => rfl

lemma receipt_foldl (frames : List Frame) (v : PeerView) (id : Str) :
    ((frames.foldl (PeerView.accept peer) v).receipt id).map (·.body) =
      (lastReceipt id frames).or ((v.receipt id).map (·.body)) := by
  induction frames generalizing v with
  | nil => simp [lastReceipt]
  | cons frame frames ih =>
    rw [List.foldl_cons,ih,lastReceipt,lastReceipt,List.reverse_cons,List.findSome?_append,
      Option.or_assoc]
    congr 1
    cases frame with
    | message mid body mode hops => rfl
    | receipt mid body =>
      simp only [PeerView.accept]
      split_ifs with hprior
      · by_cases hid : mid = id
        · subst hid
          simp [hprior]
        · simp [hid]
      · by_cases hid : mid = id
        · subst hid
          simp
        · simp [hid,Ne.symm hid]
    | notice state warning remaining => rfl

/-- The same frames of a peer, among whatever others and at whatever times, leave the same rows and
notice of this peer; the first message with an id and the last receipt for an id are the ones that
stay, and a replay changes nothing. -/
theorem peers_isolated (w : World) {cs ds : List Call} {peer : Str}
    (h : framesOf peer cs = framesOf peer ds) :
    peerView peer (after w cs) = peerView peer (after w ds) ∧
    (∀ id, (peerView peer (after w cs)).message id =
      ((peerView peer w).message id).or (firstMessage peer id (framesOf peer cs))) ∧
    (∀ id, ((peerView peer (after w cs)).receipt id).map (·.body) =
      (lastReceipt id (framesOf peer cs)).or (((peerView peer w).receipt id).map (·.body))) ∧
    (∀ now id body mode hops, (w.store.messages.find (peer,id)).isSome = true →
      (apply (⟨now,peer,.message id body mode hops⟩ : Call) w).store = w.store) ∧
    ∀ now id body, (w.store.receipts.find (peer,id)).map (·.body) = some body →
      (apply (⟨now,peer,.receipt id body⟩ : Call) w).store = w.store := by
  refine ⟨?_,?_,?_,?_,?_⟩
  · rw [peerView_after,peerView_after,h]
  · intro id
    rw [peerView_after,message_foldl]
  · intro id
    rw [peerView_after,receipt_foldl]
  · intro now id body mode hops hs
    rw [apply_message,Store.acceptMessage,Table.insert_of_some hs]
  · intro now id body hprior
    rw [apply_receipt,if_pos hprior]

/-- Two peers use the same message id; the other's frames come first, or not at all. -/
theorem peers_isolated_sample :
    (peerView (str "41:9") (after (World.new .bare) ([
      ⟨1,str "51:9",.message (str "m1") (str "other") .prompting []⟩,
      ⟨2,str "41:9",.message (str "m1") (str "hello") .prompting []⟩,
      ⟨3,str "51:9",.receipt (str "m1") .held⟩] : List Call))).message (str "m1") =
    (peerView (str "41:9") (after (World.new .bare) ([
      ⟨9,str "41:9",.message (str "m1") (str "hello") .prompting []⟩] : List Call))).message
        (str "m1") := by
  have h := @peers_isolated (World.new .bare) [
      ⟨1,str "51:9",.message (str "m1") (str "other") .prompting []⟩,
      ⟨2,str "41:9",.message (str "m1") (str "hello") .prompting []⟩,
      ⟨3,str "51:9",.receipt (str "m1") .held⟩] [
      ⟨9,str "41:9",.message (str "m1") (str "hello") .prompting []⟩] (str "41:9")
      (by decide +kernel)
  rw [h.1]

end PeerChat
